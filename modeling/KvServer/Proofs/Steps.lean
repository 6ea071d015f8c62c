/-
The steps of a connection, by cases.

`Moves` lists every step a well-formed connection can take: the point it starts from,
what it asks of the shared state, the call it makes, and the connection after it.
`step_moves` derives the list from the definition of `Conn.step`, and every invariant
of the later files is checked against the list instead of the definition.
-/
import KvServer.Proofs.Handlers

namespace KvServer

/-! ### Requests

`Served` is `Handled` after the `catch` clauses, which turn each exception into an answer and
a way to go on.
-/

/-- What reading `line` makes of a connection, `catch` clauses included. -/
inductive Served (p : Platform) (line : Str) (c : Conn) : Conn → Prop
  | reply {stack : ValueStack} {loggedIn inTransaction : Bool} {resp : Str} (hresp : Reply c resp)
      (htx : inTransaction = c.inTransaction ∨ c.inTransaction = false ∧ inTransaction = true)
      (hlogin : c.loggedIn = true → loggedIn = true)
      (hstack : ∀ v ∈ stack.vector,
        v ∈ c.stack.vector ∨ ∃ m, decode (cstr line) = .ok m ∧ Pushed m v) :
      Served p line c { c with
        stack := stack, loggedIn := loggedIn, inTransaction := inTransaction,
        sent := c.sent ++ [resp], pc := .reading }
  | create {m : Message} (hm : decode (cstr line) = .ok m) (htype : m.messageType = .create) :
      Served p line c { c with pc := .createLock m.getTable }
  | get {m : Message} (hm : decode (cstr line) = .ok m) (htype : m.messageType = .get) :
      Served p line c { c with pc := .findLock (.get m.getTable m.getKey) }
  | set {m : Message} {value : Str} {rest : List Str} (hm : decode (cstr line) = .ok m)
      (htype : m.messageType = .set) (hstack : c.stack.vector = value :: rest) :
      Served p line c { c with
        stack := { vector := rest }, pc := .findLock (.set m.getTable m.getKey value) }
  | commit {m : Message} (hm : decode (cstr line) = .ok m) (htype : m.messageType = .commit)
      (htx : c.inTransaction = true) :
      Served p line c { c with pc := .ending .commit c.lockedTables }
  | nested {m : Message} (hm : decode (cstr line) = .ok m) (htype : m.messageType = .begin)
      (htx : c.inTransaction = true) :
      Served p line c { c with
        pc := .ending (.abort (bytes "Nested transaction not allowed")) c.lockedTables }
  | leave {resp : Str} (hresp : Reply c resp)
      (hleft : ∀ m, decode (cstr line) = .ok m → m.messageType = .bye ∨ c.Refuses m) :
      Served p line c { c with sent := c.sent ++ [resp], pc := c.leave }
  | trap {m : Message} {op : ArithOp} {stack : ValueStack} (hm : decode (cstr line) = .ok m)
      (htype : m.messageType = op.messageType) (htrap : c.traps p op = true)
      (hstack : ∀ v ∈ stack.vector, v ∈ c.stack.vector) :
      Served p line c { c with stack := stack, pc := .terminated }

theorem respondWith_text (c : Conn) (next : Pc) {t : MessageType} {what : Str}
    (htype : t.isText = true) (h : Text what) :
    ∃ line, encode { messageType := t, args := [what] } = .ok line ∧
      c.respondWith { messageType := t, args := [what] } next
        = { c with sent := c.sent ++ [line], pc := next } := by
  obtain ⟨line, hline⟩ := encode_what htype h
  exact ⟨line, hline, by simp [Conn.respondWith, hline]⟩

/-- Handling a decoded request, `catch` clauses included. -/
theorem served_request {p : Platform} {line : Str} {m : Message} {c : Conn}
    (hm : decode (cstr line) = .ok m) : Served p line c (c.attempt (handleRequest p m)) := by
  have h := handled p m c
  unfold Conn.attempt
  rcases hexec : (handleRequest p m).exec c with ⟨r, c'⟩
  rw [hexec] at h
  change Handled p m c r c' at h
  cases h with
  | reply hline htx hlogin hstack =>
      refine .reply hline htx hlogin fun v hv => ?_
      rcases hstack v hv with hv | hv
      · exact .inl hv
      · exact .inr ⟨m, hm, hv⟩
  | create htype => exact .create hm htype
  | get htype => exact .get hm htype
  | set htype hstack => exact .set hm htype hstack
  | commit htype htx => exact .commit hm htype htx
  | bye htype =>
      refine .leave .ok fun m' hm' => ?_
      obtain rfl := Except.ok.inj (hm.symm.trans hm')
      exact .inl htype
  | failed stack hwhat hstack =>
      obtain ⟨resp, hresp, heq⟩ :=
        respondWith_text { c with stack := stack } .reading (t := .failed) rfl hwhat
      show Served p line c (Conn.respondWith _ _ _)
      rw [heq]
      exact .reply (.failed hwhat hresp) (.inl rfl) id fun v hv => .inl (hstack v hv)
  | nested htype htx => exact .nested hm htype htx
  | invalid hrefuses hwhat =>
      obtain ⟨resp, hresp, heq⟩ :=
        respondWith_text c c.leave (t := .error) rfl hwhat
      show Served p line c (Conn.respondWith _ _ _)
      rw [heq]
      refine .leave (.error hwhat hresp) fun m' hm' => ?_
      obtain rfl := Except.ok.inj (hm.symm.trans hm')
      exact .inr hrefuses
  | trap stack htype htrap hstack => exact .trap hm htype htrap hstack

/-- A line that does not decode is answered with ERROR, and the connection given up. -/
theorem chatWithClient_error (p : Platform) {line : Str} {c : Conn} {e : Exn}
    (he : decode (cstr line) = .error e) :
    ∃ what resp, Text what ∧ encode { messageType := .error, args := [what] } = .ok resp ∧
      c.chatWithClient p line = { c with
        received := c.received ++ [line], sent := c.sent ++ [resp], pc := c.leave } := by
  obtain ⟨what, rfl, hwhat⟩ := decode_error he
  set c' : Conn := { c with received := c.received ++ [line] }
  obtain ⟨resp, hresp, heq⟩ := respondWith_text c' c'.leave (t := .error) rfl hwhat
  refine ⟨what, resp, hwhat, hresp, ?_⟩
  have hattempt : c.chatWithClient p line
      = c'.respondWith { messageType := .error, args := [what] } c'.leave := by
    simp [Conn.chatWithClient, Conn.attempt, Conn.catchClause, he, c']
  rw [hattempt, heq]
  rfl

theorem chatWithClient_ok (p : Platform) {line : Str} {c : Conn} {m : Message}
    (hm : decode (cstr line) = .ok m) :
    c.chatWithClient p line
      = Conn.attempt { c with received := c.received ++ [line] } (handleRequest p m) := by
  simp [Conn.chatWithClient, Conn.attempt, hm]

theorem chatWithClient_bye (p : Platform) {line : Str} {c : Conn} {m : Message}
    (hm : decode (cstr line) = .ok m) (htype : m.messageType = .bye) :
    c.chatWithClient p line = { c with
      received := c.received ++ [line], sent := c.sent ++ [okLine], pc := c.leave } := by
  rw [chatWithClient_ok p hm]
  simp [Conn.attempt, handleRequest, htype, handleBye, Conn.leave]

/-- So is one that is no request, and a TOP that cannot be answered. -/
theorem chatWithClient_refused (p : Platform) {line : Str} {c : Conn} {m : Message}
    (hm : decode (cstr line) = .ok m) (hin : c.loggedIn = true) (hrefuses : c.Refuses m) :
    ∃ what resp, Text what ∧ encode { messageType := .error, args := [what] } = .ok resp ∧
      c.chatWithClient p line = { c with
        received := c.received ++ [line], sent := c.sent ++ [resp], pc := c.leave } := by
  set c' : Conn := { c with received := c.received ++ [line] }
  obtain ⟨what, hwhat, hexec⟩ : ∃ what, Text what ∧
      (handleRequest p m).exec c' = (.error (.invalidMessage what), c') := by
    rcases hrefuses with hreq | ⟨htype, value, rest, e, hstack, hencode⟩
    · refine ⟨bytes "Unknown or invalid command received", by decide, ?_⟩
      cases htype : m.messageType with
      | none | ok | failed | error | data => simp [handleRequest, htype, c', hin]
      | _ => cases (htype ▸ hreq : MessageType.isRequest _ = false)
    · obtain ⟨what, rfl, hwhat⟩ := encode_error hencode
      refine ⟨what, hwhat, ?_⟩
      simp [handleRequest, htype, c', hin, handleTop_exec, hstack, hencode]
  obtain ⟨resp, hresp, heq⟩ := respondWith_text c' c'.leave (t := .error) rfl hwhat
  refine ⟨what, resp, hwhat, hresp, ?_⟩
  rw [chatWithClient_ok p hm, Conn.attempt, hexec]
  exact heq

/-- **What one line does.** -/
theorem served (p : Platform) (line : Str) (c : Conn) :
    Served p line { c with received := c.received ++ [line] } (c.chatWithClient p line) := by
  cases hm : decode (cstr line) with
  | ok m =>
      rw [chatWithClient_ok p hm]
      exact served_request hm
  | error e =>
      obtain ⟨what, resp, hwhat, hresp, heq⟩ := chatWithClient_error p hm
      rw [heq]
      exact .leave (.error hwhat hresp) fun m hm' => by cases hm.symm.trans hm'

theorem Served.received {p : Platform} {line : Str} {c c' : Conn} (h : Served p line c c') :
    c'.received = c.received := by
  cases h <;> rfl

/-! ### Well-formed connections

What holds at each point without looking at anybody else; it is what makes the list of steps
complete.
-/

/-- The only exceptions of the guarded code are `OperationException`s with a known text. -/
def Plain (result : Except Exn Unit) : Prop :=
  ∀ e, result = .error e → ∃ what, e = .operation what ∧ Text what

/-- What holds of a connection at each point, on the connection's own account. -/
def Conn.PointOk (c : Conn) : Prop :=
  match c.pc with
  | .createUnlock result => Plain result
  | .trylock _ t => c.inTransaction = true ∧ t ∉ c.lockedTables
  | .call _ t => c.inTransaction = true ∧ t ∈ c.lockedTables
  | .guardLock _ _ | .guardCall _ _ | .guardCommit _ => c.inTransaction = false
  | .guardUnlock _ result => c.inTransaction = false ∧ Plain result
  | .ending _ rest => c.inTransaction = true ∧ rest ⊆ c.lockedTables
  | .endingUnlock _ t rest =>
      c.inTransaction = true ∧ t ∉ rest ∧ insert t rest ⊆ c.lockedTables
  | _ => True

structure Conn.WF (c : Conn) : Prop where
  /-- Outside a transaction nothing is locked. -/
  idle : c.inTransaction = false → c.lockedTables = ∅
  point : c.PointOk

/-! ### All steps

A constructor for each call that can be made, split where its outcome differs.
-/

/-- The answer to a guarded operation. -/
inductive Answers : Except Exn Unit → Str → Prop
  | ok : Answers (.ok ()) okLine
  | failed {what line : Str} (hwhat : Text what)
      (hline : encode { messageType := .failed, args := [what] } = .ok line) :
      Answers (.error (.operation what)) line

theorem Answers.reply {result : Except Exn Unit} {line : Str} (h : Answers result line)
    (c : Conn) : Reply c line := by
  cases h with
  | ok => exact .ok
  | failed hwhat hline => exact .failed hwhat hline

/-- The steps of connection `c` against the shared state `sv`. -/
inductive Moves (p : Platform) (sv : Server) (c : Conn) : Choice → Effect → Conn → Prop
  | request {line : Str} {c' : Conn} (hpc : c.pc = .reading) (hpos : 0 < line.length)
      (hlen : line.length ≤ maxEncodedLen - 1)
      (h : Served p line { c with received := c.received ++ [line] } c') :
      Moves p sv c (.recv line) .none c'
  | eof (hpc : c.pc = .reading) : Moves p sv c .eof .none { c with pc := c.leave }
  -- the catalogue
  | createLock {name : Str} (hpc : c.pc = .createLock name) (hfree : sv.tableLock = none) :
      Moves p sv c .go .lockCatalogue { c with pc := .createBody name }
  | createExists {name what : Str} (hpc : c.pc = .createBody name)
      (hfound : sv.findTable name ≠ none) (hwhat : Text what) :
      Moves p sv c .go .none { c with pc := .createUnlock (.error (.operation what)) }
  | createNew {name : Str} (hpc : c.pc = .createBody name) (hnew : sv.findTable name = none) :
      Moves p sv c .go (.newTable name) { c with pc := .createUnlock (.ok ()) }
  | createUnlock {result : Except Exn Unit} {resp : Str} (hpc : c.pc = .createUnlock result)
      (hresp : Answers result resp) :
      Moves p sv c .go .unlockCatalogue { c with sent := c.sent ++ [resp], pc := .reading }
  | findLock {a : Access} (hpc : c.pc = .findLock a) (hfree : sv.tableLock = none) :
      Moves p sv c .go .lockCatalogue { c with pc := .findBody a }
  | findBody {a : Access} (hpc : c.pc = .findBody a) :
      Moves p sv c .go .none { c with pc := .findUnlock a (sv.findTable a.table) }
  | notFound {a : Access} {e : Exn} {resp : Str} (hpc : c.pc = .findUnlock a none)
      (hresp : Answers (.error e) resp) :
      Moves p sv c .go .unlockCatalogue { c with sent := c.sent ++ [resp], pc := .reading }
  | foundNew {a : Access} {t : TablePtr} (hpc : c.pc = .findUnlock a (some t))
      (htx : c.inTransaction = true) (ht : t ∉ c.lockedTables) :
      Moves p sv c .go .unlockCatalogue { c with pc := .trylock a t }
  | foundLocked {a : Access} {t : TablePtr} (hpc : c.pc = .findUnlock a (some t))
      (htx : c.inTransaction = true) (ht : t ∈ c.lockedTables) :
      Moves p sv c .go .unlockCatalogue { c with pc := .call a t }
  | foundAuto {a : Access} {t : TablePtr} (hpc : c.pc = .findUnlock a (some t))
      (htx : c.inTransaction = false) :
      Moves p sv c .go .unlockCatalogue { c with pc := .guardLock a t }
  -- tables in a transaction
  | trylock {a : Access} {t : TablePtr} (hpc : c.pc = .trylock a t)
      (hfree : (sv.tables t).tableMutex = none) :
      Moves p sv c .go (.lock t) { c with lockedTables := insert t c.lockedTables, pc := .call a t }
  | conflict {a : Access} {t : TablePtr} (hpc : c.pc = .trylock a t)
      (hheld : (sv.tables t).tableMutex ≠ none) :
      Moves p sv c .go .none { c with
        pc := .ending (.abort (bytes "Could not acquire lock on table " ++ a.table)) c.lockedTables }
  | callGet {table key value : Str} {t : TablePtr} (hpc : c.pc = .call (.get table key) t)
      (hget : (sv.tables t).get key = .ok value) :
      Moves p sv c .go (.get t key) { c with
        stack := c.stack.push value, sent := c.sent ++ [okLine], pc := .reading }
  | callGetFail {table key resp : Str} {t : TablePtr} {e : Exn}
      (hpc : c.pc = .call (.get table key) t) (hget : (sv.tables t).get key = .error e)
      (hresp : Answers (.error e) resp) :
      Moves p sv c .go (.get t key) { c with sent := c.sent ++ [resp], pc := .reading }
  | callSet {table key value : Str} {t : TablePtr} (hpc : c.pc = .call (.set table key value) t) :
      Moves p sv c .go (.set t key value) { c with sent := c.sent ++ [okLine], pc := .reading }
  -- tables under a guard
  | guardLock {a : Access} {t : TablePtr} (hpc : c.pc = .guardLock a t)
      (hfree : (sv.tables t).tableMutex = none) :
      Moves p sv c .go (.lock t) { c with pc := .guardCall a t }
  | guardGet {table key value : Str} {t : TablePtr} (hpc : c.pc = .guardCall (.get table key) t)
      (hget : (sv.tables t).get key = .ok value) :
      Moves p sv c .go (.get t key) { c with
        stack := c.stack.push value, pc := .guardUnlock t (.ok ()) }
  | guardGetFail {table key what : Str} {t : TablePtr}
      (hpc : c.pc = .guardCall (.get table key) t) (hwhat : Text what)
      (hget : (sv.tables t).get key = .error (.operation what)) :
      Moves p sv c .go (.get t key) { c with pc := .guardUnlock t (.error (.operation what)) }
  | guardSet {table key value : Str} {t : TablePtr}
      (hpc : c.pc = .guardCall (.set table key value) t) :
      Moves p sv c .go (.set t key value) { c with pc := .guardCommit t }
  | guardCommit {t : TablePtr} (hpc : c.pc = .guardCommit t) :
      Moves p sv c .go (.commitChanges t) { c with pc := .guardUnlock t (.ok ()) }
  | guardUnlock {t : TablePtr} {result : Except Exn Unit} {resp : Str}
      (hpc : c.pc = .guardUnlock t result) (hresp : Answers result resp) :
      Moves p sv c .go (.unlock t) { c with sent := c.sent ++ [resp], pc := .reading }
  -- the loops over the locked tables
  | visit {e : Ending} {rest : Finset TablePtr} {t : TablePtr} (hpc : c.pc = .ending e rest)
      (ht : t ∈ rest) :
      Moves p sv c (.visit t) (e.effect t) { c with pc := .endingUnlock e t (rest.erase t) }
  | release {e : Ending} {rest : Finset TablePtr} {t : TablePtr}
      (hpc : c.pc = .endingUnlock e t rest) :
      Moves p sv c .go (.unlock t) { c with pc := .ending e rest }
  | finishCommit (hpc : c.pc = .ending .commit ∅) :
      Moves p sv c .go .none { c with
        inTransaction := false, lockedTables := ∅, sent := c.sent ++ [okLine], pc := .reading }
  | finishAbort {what line : Str} (hpc : c.pc = .ending (.abort what) ∅)
      (hline : encode { messageType := .failed, args := [what] } = .ok line) :
      Moves p sv c .go .none { c with
        inTransaction := false, lockedTables := ∅, sent := c.sent ++ [line], pc := .reading }
  | finishCrash {what : Str} {e : Exn} (hpc : c.pc = .ending (.abort what) ∅)
      (hline : encode { messageType := .failed, args := [what] } = .error e) :
      Moves p sv c .go .none { c with inTransaction := false, lockedTables := ∅, pc := .terminated }
  | finishDestroy (hpc : c.pc = .ending .destroy ∅) :
      Moves p sv c .go .none { c with pc := .closed }

/-- The `catch` clause for a known `OperationException`. -/
theorem catchClause_operation {c : Conn} {what : Str} (h : Text what) :
    ∃ line, Answers (.error (.operation what)) line ∧
      c.catchClause (.operation what) = { c with sent := c.sent ++ [line], pc := .reading } := by
  obtain ⟨line, hline, heq⟩ :=
    respondWith_text c .reading (t := .failed) rfl h
  exact ⟨line, .failed h hline, heq⟩

theorem attempt_afterGuard {c : Conn} {result : Except Exn Unit} (h : Plain result) :
    ∃ line, Answers result line ∧
      c.attempt (afterGuard result) = { c with sent := c.sent ++ [line], pc := .reading } := by
  cases result with
  | ok u => exact ⟨okLine, .ok, by simp [Conn.attempt, afterGuard]⟩
  | error e =>
      obtain ⟨what, rfl, hwhat⟩ := h e rfl
      obtain ⟨line, hline, heq⟩ := catchClause_operation (c := c) hwhat
      exact ⟨line, hline, by simpa [Conn.attempt, afterGuard] using heq⟩

theorem Table.get_error {table : Table} {key : Str} {e : Exn} (h : table.get key = .error e) :
    ∃ what, e = .operation what ∧ Text what := by
  unfold Table.get at h
  split at h
  · cases h
  · split at h
    · cases h
    · exact ⟨_, (Except.error.inj h).symm, by decide⟩

section

variable {p : Platform} {sv : Server} {c c' : Conn} {effect : Effect}

/-- The steps at the end of a section under `table_lock`. -/
theorem findUnlock_moves {a : Access} {found : Option TablePtr} (hpc : c.pc = .findUnlock a found) :
    Moves p sv c .go .unlockCatalogue (c.attempt (afterFind a found)) := by
  cases found with
  | none =>
      have hwhat : Text (bytes "The table that you want to find is not exist") := by decide
      obtain ⟨line, hline, heq⟩ := catchClause_operation (c := c) hwhat
      have hattempt : c.attempt (afterFind a none) = c.catchClause
          (.operation (bytes "The table that you want to find is not exist")) := by
        simp [Conn.attempt, afterFind]
      rw [hattempt, heq]
      exact .notFound hpc hline
  | some t =>
      by_cases htx : c.inTransaction = true
      · by_cases ht : t ∈ c.lockedTables
        · have hattempt : c.attempt (afterFind a (some t)) = { c with pc := .call a t } := by
            simp [Conn.attempt, afterFind, htx, ht]
          rw [hattempt]
          exact .foundLocked hpc htx ht
        · have hattempt : c.attempt (afterFind a (some t)) = { c with pc := .trylock a t } := by
            simp [Conn.attempt, afterFind, htx, ht]
          rw [hattempt]
          exact .foundNew hpc htx ht
      · have hattempt : c.attempt (afterFind a (some t)) = { c with pc := .guardLock a t } := by
          simp [Conn.attempt, afterFind, htx]
        rw [hattempt]
        exact .foundAuto hpc (by simpa using htx)

/-- The steps of a transaction's GET or SET once it has its table. -/
theorem call_moves {a : Access} {t : TablePtr} (hpc : c.pc = .call a t)
    (h : c.go sv = some (effect, c')) : Moves p sv c .go effect c' := by
  unfold Conn.go at h
  simp only [hpc, Option.some.injEq, Prod.mk.injEq] at h
  obtain ⟨rfl, rfl⟩ := h
  cases a with
  | get table key =>
      cases hget : (sv.tables t).get key with
      | ok value =>
          have hattempt : c.attempt (afterCall (.get table key) (sv.tables t))
              = { c with stack := c.stack.push value, sent := c.sent ++ [okLine], pc := .reading } := by
            simp [Conn.attempt, afterCall, hget]
          rw [hattempt]
          exact .callGet hpc hget
      | error e =>
          obtain ⟨what, rfl, hwhat⟩ := Table.get_error hget
          obtain ⟨line, hline, heq⟩ := catchClause_operation (c := c) hwhat
          have hattempt : c.attempt (afterCall (.get table key) (sv.tables t))
              = c.catchClause (.operation what) := by
            simp [Conn.attempt, afterCall, hget]
          rw [hattempt, heq]
          exact .callGetFail hpc hget hline
  | set table key value =>
      have hattempt : c.attempt (afterCall (.set table key value) (sv.tables t))
          = { c with sent := c.sent ++ [okLine], pc := .reading } := by
        simp [Conn.attempt, afterCall]
      rw [hattempt]
      exact .callSet hpc

theorem guardCall_moves {a : Access} {t : TablePtr} (hpc : c.pc = .guardCall a t)
    (h : c.go sv = some (effect, c')) : Moves p sv c .go effect c' := by
  cases a with
  | get table key =>
      cases hget : (sv.tables t).get key with
      | ok value =>
          simp only [Conn.go, hpc, guardedGet, ConnM.exec_bind, ConnM.exec_ofExcept, hget, push_exec,
            Option.some.injEq, Prod.mk.injEq] at h
          obtain ⟨rfl, rfl⟩ := h
          exact .guardGet hpc hget
      | error e =>
          simp only [Conn.go, hpc, guardedGet, ConnM.exec_bind, ConnM.exec_ofExcept, hget,
            Option.some.injEq, Prod.mk.injEq] at h
          obtain ⟨rfl, rfl⟩ := h
          obtain ⟨what, rfl, hwhat⟩ := Table.get_error hget
          exact .guardGetFail hpc hwhat hget
  | set table key value =>
      simp only [Conn.go, hpc, Option.some.injEq, Prod.mk.injEq] at h
      obtain ⟨rfl, rfl⟩ := h
      exact .guardSet hpc

/-- The end of a loop over the locked tables. -/
theorem finish_moves {e : Ending} (hpc : c.pc = .ending e ∅) :
    Moves p sv c .go .none (c.finish e) := by
  cases e with
  | commit =>
      have hfinish : c.finish .commit = { c with
          inTransaction := false, lockedTables := ∅, sent := c.sent ++ [okLine],
          pc := .reading } := by
        simp [Conn.finish, Conn.attempt]
      rw [hfinish]
      exact .finishCommit hpc
  | abort what =>
      cases hline : encode { messageType := .failed, args := [what] } with
      | ok line =>
          have hfinish : c.finish (.abort what) = { c with
              inTransaction := false, lockedTables := ∅, sent := c.sent ++ [line],
              pc := .reading } := by
            simp [Conn.finish, Conn.respondWith, hline]
          rw [hfinish]
          exact .finishAbort hpc hline
      | error e =>
          have hfinish : c.finish (.abort what) = { c with
              inTransaction := false, lockedTables := ∅, pc := .terminated } := by
            simp [Conn.finish, Conn.respondWith, hline]
          rw [hfinish]
          exact .finishCrash hpc hline
  | destroy => exact .finishDestroy hpc

/-- Both outcomes of `trylock`. -/
theorem trylock_moves {a : Access} {t : TablePtr} (hpc : c.pc = .trylock a t)
    (h : c.go sv = some (effect, c')) : Moves p sv c .go effect c' := by
  simp only [Conn.go, hpc] at h
  split at h
  · rename_i hfree
    obtain ⟨rfl, rfl⟩ := Prod.mk.inj (Option.some.inj h)
    have hattempt : c.attempt (afterTrylock a t true)
        = { c with lockedTables := insert t c.lockedTables, pc := .call a t } := by
      simp [Conn.attempt, afterTrylock]
    rw [hattempt]
    exact .trylock hpc hfree
  · rename_i hheld
    obtain ⟨rfl, rfl⟩ := Prod.mk.inj (Option.some.inj h)
    have hattempt : c.attempt (afterTrylock a t false) = { c with
        pc := .ending (.abort (bytes "Could not acquire lock on table " ++ a.table))
          c.lockedTables } := by
      simp [Conn.attempt, afterTrylock, Conn.catchClause]
    rw [hattempt]
    exact .conflict hpc hheld

/-- The steps that are settled by the point and the server. -/
theorem go_moves (hwf : c.WF) (h : c.go sv = some (effect, c')) : Moves p sv c .go effect c' := by
  have hpoint := hwf.point
  unfold Conn.PointOk at hpoint
  cases hpc : c.pc with
  | reading => simp [Conn.go, hpc] at h
  | createLock name =>
      simp only [Conn.go, hpc] at h
      split at h
      · rename_i hfree
        obtain ⟨rfl, rfl⟩ := Prod.mk.inj (Option.some.inj h)
        exact .createLock hpc hfree
      · cases h
  | createBody name =>
      simp only [Conn.go, hpc] at h
      split at h
      · rename_i t hfound
        obtain ⟨rfl, rfl⟩ := Prod.mk.inj (Option.some.inj h)
        exact .createExists hpc (by simp [hfound]) (by decide)
      · rename_i hnew
        obtain ⟨rfl, rfl⟩ := Prod.mk.inj (Option.some.inj h)
        exact .createNew hpc hnew
  | createUnlock result =>
      simp only [Conn.go, hpc, Option.some.injEq, Prod.mk.injEq] at h
      obtain ⟨rfl, rfl⟩ := h
      rw [hpc] at hpoint
      obtain ⟨line, hline, heq⟩ := attempt_afterGuard (c := c) hpoint
      rw [heq]
      exact .createUnlock hpc hline
  | findLock a =>
      simp only [Conn.go, hpc] at h
      split at h
      · rename_i hfree
        obtain ⟨rfl, rfl⟩ := Prod.mk.inj (Option.some.inj h)
        exact .findLock hpc hfree
      · cases h
  | findBody a =>
      simp only [Conn.go, hpc, Option.some.injEq, Prod.mk.injEq] at h
      obtain ⟨rfl, rfl⟩ := h
      exact .findBody hpc
  | findUnlock a found =>
      simp only [Conn.go, hpc, Option.some.injEq, Prod.mk.injEq] at h
      obtain ⟨rfl, rfl⟩ := h
      exact findUnlock_moves hpc
  | trylock a t => exact trylock_moves hpc h
  | call a t => exact call_moves hpc h
  | guardLock a t =>
      simp only [Conn.go, hpc] at h
      split at h
      · rename_i hfree
        obtain ⟨rfl, rfl⟩ := Prod.mk.inj (Option.some.inj h)
        exact .guardLock hpc hfree
      · cases h
  | guardCall a t => exact guardCall_moves hpc h
  | guardCommit t =>
      simp only [Conn.go, hpc, Option.some.injEq, Prod.mk.injEq] at h
      obtain ⟨rfl, rfl⟩ := h
      exact .guardCommit hpc
  | guardUnlock t result =>
      simp only [Conn.go, hpc, Option.some.injEq, Prod.mk.injEq] at h
      obtain ⟨rfl, rfl⟩ := h
      rw [hpc] at hpoint
      obtain ⟨line, hline, heq⟩ := attempt_afterGuard (c := c) hpoint.2
      rw [heq]
      exact .guardUnlock hpc hline
  | ending e rest =>
      simp only [Conn.go, hpc] at h
      split at h
      · rename_i hrest
        subst hrest
        obtain ⟨rfl, rfl⟩ := Prod.mk.inj (Option.some.inj h)
        exact finish_moves hpc
      · cases h
  | endingUnlock e t rest =>
      simp only [Conn.go, hpc, Option.some.injEq, Prod.mk.injEq] at h
      obtain ⟨rfl, rfl⟩ := h
      exact .release hpc
  | closed => simp [Conn.go, hpc] at h
  | terminated => simp [Conn.go, hpc] at h

/-- **Every step of a well-formed connection is in the list.** -/
theorem step_moves {ch : Choice} (hwf : c.WF) (h : c.step p sv ch = some (effect, c')) :
    Moves p sv c ch effect c' := by
  cases ch with
  | recv line =>
      simp only [Conn.step] at h
      split at h
      · rename_i hread
        obtain ⟨rfl, rfl⟩ := Prod.mk.inj (Option.some.inj h)
        exact .request hread.1 hread.2.1 hread.2.2 (served p line c)
      · cases h
  | eof =>
      simp only [Conn.step] at h
      split at h
      · rename_i hpc
        obtain ⟨rfl, rfl⟩ := Prod.mk.inj (Option.some.inj h)
        exact .eof hpc
      · cases h
  | go => exact go_moves hwf h
  | visit t =>
      simp only [Conn.step] at h
      split at h
      · rename_i e rest hpc
        split at h
        · rename_i ht
          obtain ⟨rfl, rfl⟩ := Prod.mk.inj (Option.some.inj h)
          exact .visit hpc ht
        · cases h
      · cases h

/-! ### Well-formedness is kept

With this, the list of steps can be used all along a run.
-/

theorem Served.wf {line : Str} (h : Served p line c c') (hwf : c.WF) : c'.WF := by
  cases h with
  | reply hresp htx hlogin hstack =>
      refine ⟨fun hidle => hwf.idle ?_, trivial⟩
      rcases htx with heq | ⟨-, heq⟩
      · exact heq ▸ hidle
      · cases heq.symm.trans hidle
  | create hm htype => exact ⟨hwf.idle, trivial⟩
  | get hm htype => exact ⟨hwf.idle, trivial⟩
  | set hm htype hstack => exact ⟨hwf.idle, trivial⟩
  | commit hm htype htx => exact ⟨hwf.idle, htx, subset_rfl⟩
  | nested hm htype htx => exact ⟨hwf.idle, htx, subset_rfl⟩
  | leave hresp hleft =>
      refine ⟨hwf.idle, ?_⟩
      by_cases htx : c.inTransaction = true
      · simp [Conn.PointOk, Conn.leave, htx]
      · simp [Conn.PointOk, Conn.leave, htx]
  | trap hm htype htrap => exact ⟨hwf.idle, trivial⟩

/-- **Every step leaves a well-formed connection.** -/
theorem Moves.wf {ch : Choice} (h : Moves p sv c ch effect c') (hwf : c.WF) : c'.WF := by
  have hpoint := hwf.point
  unfold Conn.PointOk at hpoint
  cases h with
  | request hpc hpos hlen h => exact h.wf ⟨hwf.idle, by simp [Conn.PointOk, hpc]⟩
  | eof hpc =>
      refine ⟨hwf.idle, ?_⟩
      by_cases htx : c.inTransaction = true
      · simp [Conn.PointOk, Conn.leave, htx]
      · simp [Conn.PointOk, Conn.leave, htx]
  | createExists hpc hfound hwhat =>
      exact ⟨hwf.idle, fun e he => ⟨_, (Except.error.inj he).symm, hwhat⟩⟩
  | createNew hpc hnew => exact ⟨hwf.idle, nofun⟩
  | foundNew hpc htx ht => exact ⟨hwf.idle, htx, ht⟩
  | foundLocked hpc htx ht => exact ⟨hwf.idle, htx, ht⟩
  | foundAuto hpc htx => exact ⟨hwf.idle, htx⟩
  | trylock hpc hfree =>
      rw [hpc] at hpoint
      refine ⟨fun hidle => ?_, hpoint.1, Finset.mem_insert_self _ _⟩
      cases hpoint.1.symm.trans hidle
  | conflict hpc hheld =>
      rw [hpc] at hpoint
      exact ⟨hwf.idle, hpoint.1, subset_rfl⟩
  | guardLock hpc hfree =>
      rw [hpc] at hpoint
      exact ⟨hwf.idle, hpoint⟩
  | guardGet hpc hget =>
      rw [hpc] at hpoint
      exact ⟨hwf.idle, hpoint, nofun⟩
  | guardGetFail hpc hwhat hget =>
      rw [hpc] at hpoint
      exact ⟨hwf.idle, hpoint, fun e he => ⟨_, (Except.error.inj he).symm, hwhat⟩⟩
  | guardSet hpc =>
      rw [hpc] at hpoint
      exact ⟨hwf.idle, hpoint⟩
  | guardCommit hpc =>
      rw [hpc] at hpoint
      exact ⟨hwf.idle, hpoint, nofun⟩
  | visit hpc ht =>
      rw [hpc] at hpoint
      exact ⟨hwf.idle, hpoint.1, Finset.notMem_erase _ _, by
        rw [Finset.insert_erase ht]
        exact hpoint.2⟩
  | release hpc =>
      rw [hpc] at hpoint
      exact ⟨hwf.idle, hpoint.1, (Finset.subset_insert _ _).trans hpoint.2.2⟩
  | finishCommit hpc => exact ⟨fun _ => rfl, trivial⟩
  | finishAbort hpc hline => exact ⟨fun _ => rfl, trivial⟩
  | finishCrash hpc hline => exact ⟨fun _ => rfl, trivial⟩
  | finishDestroy hpc => exact ⟨hwf.idle, trivial⟩
  | createLock hpc hfree => exact ⟨hwf.idle, trivial⟩
  | createUnlock hpc hresp => exact ⟨hwf.idle, trivial⟩
  | findLock hpc hfree => exact ⟨hwf.idle, trivial⟩
  | findBody hpc => exact ⟨hwf.idle, trivial⟩
  | notFound hpc hresp => exact ⟨hwf.idle, trivial⟩
  | callGet hpc hget => exact ⟨hwf.idle, trivial⟩
  | callGetFail hpc hget hresp => exact ⟨hwf.idle, trivial⟩
  | callSet hpc => exact ⟨hwf.idle, trivial⟩
  | guardUnlock hpc hresp => exact ⟨hwf.idle, trivial⟩

/-- The connection is closed, or will be without another answer. -/
def Pc.gone : Pc → Bool
  | .closed | .ending .destroy _ | .endingUnlock .destroy _ _ => true
  | _ => false

theorem leave_gone (c : Conn) : c.leave.gone = true := by
  unfold Conn.leave
  split <;> rfl

theorem Moves.gone {ch : Choice} (h : Moves p sv c ch effect c') (hpc : c.pc ≠ .reading) :
    c'.pc.gone = c.pc.gone := by
  cases h with
  | request hread hpos hlen h => exact absurd hread hpc
  | eof hread => exact absurd hread hpc
  | visit hpc ht =>
      rw [hpc]
      cases ‹Ending› <;> rfl
  | release hpc =>
      rw [hpc]
      cases ‹Ending› <;> rfl
  | _ =>
      rw [‹c.pc = _›]
      rfl

/-- What a step reads. -/
def Choice.received : Choice → List Str
  | .recv line => [line]
  | _ => []

theorem Moves.received {ch : Choice} (h : Moves p sv c ch effect c') :
    c'.received = c.received ++ ch.received := by
  cases h with
  | request hpc hpos hlen h => exact h.received
  | _ => exact (List.append_nil _).symm

/-- Inside a request nothing is read. -/
theorem Moves.received_same {ch : Choice} (h : Moves p sv c ch effect c') (hpc : c.pc ≠ .reading) :
    c'.received = c.received := by
  cases h with
  | request hread hpos hlen h => exact absurd hread hpc
  | _ => rfl

/-- What has been sent stays sent, and a closed connection does not move. -/
theorem Moves.grows {ch : Choice} (h : Moves p sv c ch effect c') :
    c.sent <+: c'.sent ∧ c.pc ≠ .closed ∧ (c'.received = c.received ∨
      ∃ line, ch = .recv line ∧ c'.received = c.received ++ [line]) := by
  cases h with
  | @request line _ hpc hpos hlen h =>
      have hreceived := h.received
      refine ⟨?_, by simp [hpc], .inr ⟨line, rfl, hreceived⟩⟩
      cases h with
      | reply hresp htx hlogin hstack => exact List.prefix_append _ _
      | leave hresp hleft => exact List.prefix_append _ _
      | _ => exact List.prefix_rfl
  | _ =>
      refine ⟨?_, by simp [*], .inl rfl⟩
      first
        | exact List.prefix_rfl
        | exact List.prefix_append _ _

theorem Moves.not_terminated {ch : Choice} (h : Moves p sv c ch effect c') :
    c.pc ≠ .terminated := by
  cases h with
  | _ => simp [‹c.pc = _›]

end

end KvServer
