/-
When a client tool's success means that its requests were acknowledged.

A tool looks at what its buffer holds after each read, not at what the read returned.
At end of input the buffer still holds the previous reply, so a server that goes away
after an OK is taken to have answered OK to everything that follows.  `exitCode_eq_zero`
says what makes `main` return 0, and `success_acknowledged_iff` when that is enough.
-/
import KvServer.Model.Clients
import KvServer.Proofs.Receive

namespace KvServer

/-- The requests of a tool up to the last one before BYE, with the names in its messages. -/
def Tool.requests : Tool → List (Str × Message)
  | .setValue username table key value =>
      [(bytes "LOGIN", { messageType := .login, args := [username] }),
        (bytes "PUSH", { messageType := .push, args := [value] }),
        (bytes "SET", { messageType := .set, args := [table, key] })]
  | .incrValue useTransaction username table key =>
      [(bytes "LOGIN", { messageType := .login, args := [username] })] ++
        (if useTransaction then [(bytes "BEGIN", { messageType := .begin })] else []) ++
        [(bytes "GET", { messageType := .get, args := [table, key] }),
          (bytes "PUSH", { messageType := .push, args := [bytes "1"] }),
          (bytes "ADD", { messageType := .add }),
          (bytes "SET", { messageType := .set, args := [table, key] })] ++
        (if useTransaction then [(bytes "COMMIT", { messageType := .commit })] else [])

/-- A complete line, short enough for the buffer, that decodes to OK. -/
structure OkLine (line : Str) : Prop where
  split : ∃ body, line = body ++ [newline] ∧ newline ∉ body ∧ nul ∉ body
  short : line.length < maxEncodedLen
  ok : ∃ m, decode line = .ok m ∧ m.messageType = .ok

/-- The buffer reads as an OK line. -/
def HoldsOk (buf : Str) : Prop := ∃ m, decode (cstr buf) = .ok m ∧ m.messageType = .ok

/-- The first `k` lines the server sends are OK lines. -/
def Acknowledged (k : Nat) (input : Str) : Prop :=
  ∃ (lines : List Str) (rest : Str), lines.length = k ∧ input = lines.flatten ++ rest ∧
    ∀ line ∈ lines, OkLine line

/--
The server sends fewer than `k` OK lines and then nothing more.  With no line at all,
what matters is what the buffer held before.
-/
def EndsEarly (k : Nat) (input buf : Str) : Prop :=
  ∃ lines : List Str, lines.length < k ∧ input = lines.flatten ∧ (∀ line ∈ lines, OkLine line) ∧
    (lines = [] → HoldsOk buf)

/-! ### Reading one line

A buffer that holds an OK line has it from the last read, unless that read found the end of
the input and left the buffer alone.
-/

theorem readLoop_length : ∀ (n : Nat) (input : Str), (readLoop n input).1.length ≤ n := by
  intro n
  induction n with
  | zero => intro input; exact Nat.le_refl _
  | succ n ih =>
      intro input
      cases input with
      | nil => exact Nat.zero_le _
      | cons c input =>
          by_cases hc : c = newline
          · simp [readLoop, hc]
          · simpa [readLoop, hc] using ih input

theorem readLoop_newline : ∀ (n : Nat) (input before after : Str),
    (readLoop n input).1 = before ++ newline :: after → after = [] := by
  intro n
  induction n with
  | zero => intro input before after h; simp [readLoop] at h
  | succ n ih =>
      intro input before after h
      cases input with
      | nil => simp [readLoop] at h
      | cons c input =>
          by_cases hc : c = newline
          · cases before with
            | nil => simpa [readLoop, hc] using h.symm
            | cons b before => simp [readLoop, hc] at h
          · cases before with
            | nil => simp [readLoop, hc] at h
            | cons b before =>
                simp only [readLoop, if_neg hc, List.cons_append, List.cons.injEq] at h
                exact ih input before after h.2

/-- A read that leaves an OK line in the buffer has read that line. -/
theorem readLoop_ok {n : Nat} {input : Str} (hn : n < maxEncodedLen)
    (h : HoldsOk (readLoop n input).1) : OkLine (readLoop n input).1 := by
  obtain ⟨m, hm, hok⟩ := h
  set line := (readLoop n input).1 with hline
  have hlast := (decode_eq_ok.mp hm).terminated
  obtain ⟨body, hbody⟩ := List.getLast?_eq_some_iff.mp hlast
  -- the text up to the first NUL ends in a newline, so it is the whole line
  have hsplit : cstr line ++ line.dropWhile (· != nul) = line := List.takeWhile_append_dropWhile
  have hafter : line.dropWhile (· != nul) = [] := by
    refine readLoop_newline n input body _ ?_
    rw [hbody, List.append_assoc, List.singleton_append] at hsplit
    rw [← hline, hsplit]
  rw [hafter, List.append_nil] at hsplit
  have hnul : nul ∉ line := by
    rw [← hsplit]
    intro hmem
    have := List.mem_takeWhile_imp hmem
    simp at this
  rw [hsplit] at hm hbody
  refine ⟨⟨body, hbody, fun hmem => ?_, fun hmem => hnul (hbody ▸ List.mem_append_left _ hmem)⟩,
    Nat.lt_of_le_of_lt (readLoop_length n input) hn, m, hm, hok⟩
  obtain ⟨before, after, rfl⟩ := List.append_of_mem hmem
  have := readLoop_newline n input before (after ++ [newline]) (by rw [← hline, hbody]; simp)
  simp at this

theorem OkLine.holdsOk {line : Str} (h : OkLine line) (more : Str) :
    HoldsOk (line ++ nul :: more) := by
  obtain ⟨⟨body, hbody, -, hnul⟩, -, m, hm, hok⟩ := h
  have hmem : nul ∉ line := by
    rw [hbody]
    simp only [List.mem_append, List.mem_singleton, not_or]
    exact ⟨hnul, by decide⟩
  exact ⟨m, by rw [cstr_append_nul, cstr_eq_self hmem]; exact hm, hok⟩

theorem OkLine.ne_nil {line : Str} (h : OkLine line) : line ≠ [] := by
  obtain ⟨⟨body, rfl, -⟩, -⟩ := h
  simp

theorem OkLine.count {line : Str} (h : OkLine line) : line.count newline = 1 := by
  obtain ⟨⟨body, rfl, hline, -⟩, -⟩ := h
  rw [List.count_append, List.count_eq_zero.mpr hline]
  rfl

theorem count_flatten {lines : List Str} (h : ∀ line ∈ lines, OkLine line) :
    lines.flatten.count newline = lines.length := by
  induction lines with
  | nil => rfl
  | cons line lines ih =>
      rw [List.flatten_cons, List.count_append, (h line (by simp)).count,
        ih fun l hl => h l (by simp [hl]), List.length_cons, Nat.add_comm]

/-- A server that sends too few OK lines has not acknowledged. -/
theorem not_endsEarly {k : Nat} {input buf : Str} (hack : Acknowledged k input) :
    ¬ EndsEarly k input buf := by
  rintro ⟨lines, hlen, rfl, hlines, -⟩
  obtain ⟨acks, rest, hk, hsplit, hacks⟩ := hack
  have hcount := congrArg (List.count newline) hsplit
  rw [count_flatten hlines, List.count_append, count_flatten hacks] at hcount
  omega

/-! ### Reading the replies

With the input at its end every further read leaves the last reply in the buffer, so one OK
there is as good as all the missing ones.
-/

/-- `k` reads in a row, each of which leaves an OK line in the buffer. -/
def Replied : Nat → Str → Str → Prop
  | 0, _, _ => True
  | k + 1, input, buf =>
      HoldsOk (rioReadlineb input buf maxEncodedLen).buf ∧
        Replied k (rioReadlineb input buf maxEncodedLen).rest
          (rioReadlineb input buf maxEncodedLen).buf

theorem replied_nil : ∀ (k : Nat) {buf : Str}, HoldsOk buf → Replied k [] buf := by
  intro k
  induction k with
  | zero => intro buf _; trivial
  | succ k ih => intro buf h; exact ⟨h, ih h⟩

theorem replied_line {k : Nat} {line : Str} (h : OkLine line) (input buf : Str) :
    ∃ more, HoldsOk (line ++ nul :: more) ∧
      (Replied (k + 1) (line ++ input) buf ↔ Replied k input (line ++ nul :: more)) := by
  obtain ⟨⟨body, hbody, hline, hnul⟩, hshort, hm⟩ := id h
  have hne : line ++ input ≠ [] := by simp [h.ne_nil]
  have hread : readLoop (maxEncodedLen - 1) (line ++ input) = (line, input) := by
    rw [hbody] at hshort ⊢
    rw [List.length_append, List.length_singleton] at hshort
    rw [List.append_assoc]
    exact readLoop_line hline input _ (by omega)
  refine ⟨buf.drop (line.length + 1), h.holdsOk _, ?_⟩
  simp only [Replied, rioReadlineb, if_neg hne, hread]
  exact ⟨fun hr => hr.2, fun hr => ⟨h.holdsOk _, hr⟩⟩

/-- A successful read of something takes an OK line off the input. -/
theorem replied_cons {k : Nat} {input buf : Str} (hne : input ≠ [])
    (h : Replied (k + 1) input buf) :
    ∃ line more, OkLine line ∧ input = line ++ more ∧
      ∃ junk, Replied k more (line ++ nul :: junk) := by
  simp only [Replied, rioReadlineb, if_neg hne] at h
  obtain ⟨⟨m, hm, hok⟩, hrest⟩ := h
  rw [cstr_append_nul] at hm
  exact ⟨_, _, readLoop_ok (by decide) ⟨m, hm, hok⟩, (readLoop_append _ _).symm, _, hrest⟩

/-- All reads find an OK line exactly if there are enough of them, or nothing else comes. -/
theorem replied_iff : ∀ (k : Nat) (input buf : Str),
    Replied k input buf ↔ Acknowledged k input ∨ EndsEarly k input buf := by
  intro k
  induction k with
  | zero =>
      intro input buf
      exact ⟨fun _ => .inl ⟨[], input, rfl, rfl, by simp⟩, fun _ => trivial⟩
  | succ k ih =>
      intro input buf
      constructor
      · intro h
        by_cases hnil : input = []
        · subst hnil
          exact .inr ⟨[], Nat.succ_pos k, rfl, by simp, fun _ => h.1⟩
        · obtain ⟨line, more, hline, rfl, junk, hrest⟩ := replied_cons hnil h
          rcases (ih _ _).mp hrest with ⟨lines, rest, hlen, rfl, hlines⟩ | ⟨lines, hlen, rfl, hlines, -⟩
          · refine .inl ⟨line :: lines, rest, by simp [hlen], by simp, ?_⟩
            exact List.forall_mem_cons.mpr ⟨hline, hlines⟩
          · refine .inr ⟨line :: lines, by simpa using hlen, by simp, ?_, by simp⟩
            exact List.forall_mem_cons.mpr ⟨hline, hlines⟩
      · rintro (⟨lines, rest, hlen, rfl, hlines⟩ | ⟨lines, hlen, rfl, hlines, hbuf⟩)
        · cases lines with
          | nil => simp at hlen
          | cons line lines =>
              obtain ⟨hline, hlines⟩ := List.forall_mem_cons.mp hlines
              obtain ⟨junk, hholds, hiff⟩ :=
                replied_line (k := k) hline (lines.flatten ++ rest) buf
              rw [List.flatten_cons, List.append_assoc, hiff, ih]
              exact .inl ⟨lines, rest, by simpa using hlen, rfl, hlines⟩
        · cases lines with
          | nil => exact replied_nil (k + 1) (hbuf rfl)
          | cons line lines =>
              obtain ⟨hline, hlines⟩ := List.forall_mem_cons.mp hlines
              obtain ⟨junk, hholds, hiff⟩ := replied_line (k := k) hline lines.flatten buf
              rw [List.flatten_cons, hiff, ih]
              exact .inr ⟨lines, by simpa using hlen, rfl, hlines, fun _ => hholds⟩

/-! ### `main`

The blocks of `main` differ in their requests only, so success comes down to encoding them all
and finding OK after each read.
-/

def askAll : List (Str × Message) → ClientM Unit
  | [] => return ()
  | (name, req) :: reqs => do
      ask name req
      askAll reqs

theorem Tool.body_eq (tool : Tool) :
    tool.body = (askAll tool.requests >>= fun _ => writeRequest { messageType := .bye }) := by
  cases tool with
  | setValue username table key value =>
      simp [Tool.body, KvServer.setValue, Tool.requests, askAll]
  | incrValue useTransaction username table key =>
      cases useTransaction <;> simp [Tool.body, KvServer.incrValue, Tool.requests, askAll]

theorem bind_apply {α β : Type} (m : ClientM α) (f : α → ClientM β) (s : Session) :
    (m >>= f) s = (m s >>= fun r => f r.1 r.2) := rfl

theorem writeRequest_eq (req : Message) (s : Session) :
    writeRequest req s =
      match encode req with
      | .ok encoded => .ok ((), { s with written := s.written ++ [encoded] })
      | .error e => .error e := by
  unfold writeRequest
  cases h : encode req with
  | ok encoded => rfl
  | error e => rfl

/-- What a session has left after one read. -/
def Session.read (s : Session) : Session :=
  { s with
    input := (rioReadlineb s.input s.buf maxEncodedLen).rest
    buf := (rioReadlineb s.input s.buf maxEncodedLen).buf }

theorem readReply_eq (s : Session) :
    readReply s = (decode (cstr s.read.buf)).map fun resp => (resp, s.read) := by
  show (decode (cstr s.read.buf) >>= fun resp => Except.ok (resp, s.read)) = _
  cases decode (cstr s.read.buf) <;> rfl

/-- One block succeeds if its request can be encoded and the buffer reads as OK afterwards. -/
theorem ask_ok {name : Str} {req : Message} {s s' : Session} :
    ask name req s = .ok ((), s') ↔
      ∃ encoded, encode req = .ok encoded ∧ HoldsOk s.read.buf ∧
        s' = { s.read with written := s.written ++ [encoded] } := by
  unfold ask
  rw [bind_apply, writeRequest_eq]
  cases hreq : encode req with
  | error e => simp
  | ok encoded =>
      simp only [ok_bind, bind_apply, readReply_eq, Except.ok.injEq, exists_eq_left']
      unfold HoldsOk
      cases hresp : decode (cstr (Session.read { s with written := s.written ++ [encoded] }).buf) with
      | error e =>
          have : decode (cstr s.read.buf) = .error e := hresp
          simp [Except.map, this]
      | ok resp =>
          have hread : decode (cstr s.read.buf) = .ok resp := hresp
          simp only [Except.map, ok_bind, hread, Except.ok.injEq, exists_eq_left']
          by_cases hok : resp.messageType = .ok
          · simp only [hok, ne_eq, not_true_eq_false, if_false, true_and]
            exact ⟨fun h => (Prod.ext_iff.mp (Except.ok.inj h)).2.symm, fun h => by rw [h]; rfl⟩
          · simp only [hok, ne_eq, not_false_eq_true, if_true, false_and, iff_false]
            exact nofun

/-- All blocks succeed if every request can be encoded and every read leaves an OK line. -/
theorem askAll_ok : ∀ (reqs : List (Str × Message)) (s : Session),
    (∃ s', askAll reqs s = .ok ((), s')) ↔
      (∀ req ∈ reqs, ∃ encoded, encode req.2 = .ok encoded) ∧
        Replied reqs.length s.input s.buf := by
  intro reqs
  induction reqs with
  | nil => intro s; exact ⟨fun _ => ⟨by simp, trivial⟩, fun _ => ⟨s, rfl⟩⟩
  | cons req reqs ih =>
      intro s
      have hstep : askAll (req :: reqs) s = (ask req.1 req.2 s >>= fun r => askAll reqs r.2) := rfl
      rw [hstep, List.forall_mem_cons, List.length_cons]
      constructor
      · rintro ⟨s', h⟩
        cases hask : ask req.1 req.2 s with
        | error e => rw [hask] at h; cases h
        | ok r =>
            rw [hask] at h
            obtain ⟨encoded, hreq, hholds, hr⟩ := ask_ok.mp hask
            obtain ⟨hreqs, hrest⟩ := (ih r.2).mp ⟨s', h⟩
            rw [hr] at hrest
            exact ⟨⟨⟨encoded, hreq⟩, hreqs⟩, hholds, hrest⟩
      · rintro ⟨⟨⟨encoded, hreq⟩, hreqs⟩, hholds, hrest⟩
        rw [ask_ok.mpr ⟨encoded, hreq, hholds, rfl⟩]
        exact (ih _).mpr ⟨hreqs, hrest⟩

/-- The line of every BYE. -/
def byeLine : Str := bytes "BYE\n"

theorem encode_bye : encode { messageType := .bye } = .ok byeLine := by decide

theorem exitCode_eq_zero (tool : Tool) (s : Session) :
    exitCode tool.body s = 0 ↔
      (∀ req ∈ tool.requests, ∃ encoded, encode req.2 = .ok encoded) ∧
        Replied tool.requests.length s.input s.buf := by
  rw [← askAll_ok, exitCode, Tool.body_eq, bind_apply]
  cases h : askAll tool.requests s with
  | error e => simp
  | ok r =>
      simp only [ok_bind, writeRequest_eq, encode_bye, true_iff]
      exact ⟨r.2, rfl⟩

/--
**Success means that every request was acknowledged, unless the server goes away in
time.**  The one way to succeed without is a server that ends the connection after
fewer OK lines than there are requests, with the buffer still holding an OK line.
-/
theorem success_acknowledged_iff (tool : Tool) (s : Session) :
    (exitCode tool.body s = 0 → Acknowledged tool.requests.length s.input) ↔
      ¬ ((∀ req ∈ tool.requests, ∃ encoded, encode req.2 = .ok encoded) ∧
        EndsEarly tool.requests.length s.input s.buf) := by
  rw [exitCode_eq_zero, replied_iff]
  constructor
  · rintro h ⟨hreqs, hearly⟩
    exact not_endsEarly (h ⟨hreqs, .inr hearly⟩) hearly
  · rintro h ⟨hreqs, hack | hearly⟩
    · exact hack
    · exact absurd ⟨hreqs, hearly⟩ h

/-- A server that answers LOGIN and goes away. -/
def oneReply : Session := { input := bytes "OK\n", buf := [] }

def aliceSets : Tool := .setValue (bytes "alice") (bytes "t") (bytes "k") (bytes "1")

theorem setValue_unacknowledged :
    exitCode aliceSets.body oneReply = 0 ∧
      ¬ Acknowledged aliceSets.requests.length oneReply.input := by
  refine ⟨by decide, ?_⟩
  rintro ⟨lines, rest, hlen, hsplit, hlines⟩
  have hcount := congrArg (List.count newline) hsplit
  rw [List.count_append, count_flatten hlines, hlen] at hcount
  have hone : oneReply.input.count newline = 1 := by decide
  have hthree : aliceSets.requests.length = 3 := rfl
  omega

end KvServer
