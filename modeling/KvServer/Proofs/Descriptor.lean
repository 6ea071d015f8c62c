/-
How the bytes arrive makes no difference.

`brought` is what the calls of `read` bring before one of them ends the input, and `stop` how it
ends.  A line is read out of the bytes in the internal buffer and those to come, whatever the
calls make of them; nothing is waited for that the line does not need.
-/
import KvServer.Model.Descriptor
import KvServer.Proofs.Receive

namespace KvServer

/-! ### What the calls bring

The proofs go by the bytes, not by the calls: `read_cons` and `read_nil` say what one call of
`rio_read` for one byte comes to, with all the interruptions before it.
-/

/-- How the input ends. -/
inductive Stop
  | eof
  | failed
  deriving DecidableEq

def Stop.read : Stop → RioRead
  | .eof => .eof
  | .failed => .failed

/-- The end of the input, with the calls after it. -/
def stop : List ReadResult → Option (Stop × List ReadResult)
  | [] => none
  | .data _ :: rest => stop rest
  | .interrupted :: rest => stop rest
  | .eof :: rest => some (.eof, rest)
  | .failed :: rest => some (.failed, rest)

namespace Rio

/-- What can be read from a descriptor. -/
def stream (rp : Rio) (calls : List ReadResult) : Str := rp.unread ++ brought calls

/-- In `n` bytes there is a line, or no room for more. -/
def Complete (n : Nat) (input : Str) : Prop := newline ∈ input.take n ∨ n ≤ input.length

instance (n : Nat) (input : Str) : Decidable (Complete n input) := by
  unfold Complete
  infer_instance

variable {rp : Rio} {calls : List ReadResult} {c : Byte} {more : Str} {n : Nat}

theorem not_complete_nil : ¬ Complete (n + 1) [] := by
  simp [Complete]

theorem complete_cons (hc : c ≠ newline) : Complete (n + 1) (c :: more) ↔ Complete n more := by
  simp [Complete, hc.symm]

/-- A byte is there, or comes with one of the calls. -/
theorem read_cons (h : rp.stream calls = c :: more) :
    ∃ rp' calls', rp.read 1 calls = some (.copied [c], rp', calls') ∧ rp'.stream calls' = more ∧
      stop calls' = stop calls := by
  induction calls generalizing rp with
  | nil =>
      rw [stream, brought, List.append_nil] at h
      refine ⟨{ unread := more }, [], ?_, List.append_nil _, rfl⟩
      rw [read.eq_def, if_neg (by simp [h])]
      simp [copy, h]
  | cons call rest ih =>
      by_cases hempty : rp.unread = []
      · rw [stream, hempty, List.nil_append] at h
        cases call with
        | data chunk =>
            obtain ⟨b, bs, hchunk⟩ := List.exists_cons_of_ne_nil chunk.nonempty
            rw [brought, hchunk, List.cons_append] at h
            obtain ⟨rfl, rfl⟩ := List.cons.inj h
            refine ⟨{ unread := bs }, rest, ?_, rfl, rfl⟩
            rw [read.eq_def, if_pos hempty]
            simp [copy, hchunk]
        | interrupted =>
            obtain ⟨rp', calls', hread, hstream, hstop⟩ :=
              ih (show rp.stream rest = c :: more by rw [stream, hempty, List.nil_append]; exact h)
            refine ⟨rp', calls', ?_, hstream, hstop⟩
            rw [read.eq_def, if_pos hempty]
            exact hread
        | eof => cases h
        | failed => cases h
      · obtain ⟨b, bs, hunread⟩ := List.exists_cons_of_ne_nil hempty
        rw [stream, hunread, List.cons_append] at h
        obtain ⟨rfl, rfl⟩ := List.cons.inj h
        refine ⟨{ unread := bs }, call :: rest, ?_, rfl, rfl⟩
        rw [read.eq_def, if_neg hempty]
        simp [copy, hunread]

/-- Where no byte comes, the end of the input is found. -/
theorem read_nil (h : rp.stream calls = []) :
    rp.read 1 calls = (stop calls).map fun (how, rest) => (how.read, rp, rest) := by
  obtain ⟨hempty, hnone⟩ := List.append_eq_nil_iff.mp h
  induction calls with
  | nil => rw [read.eq_def, if_pos hempty]; rfl
  | cons call rest ih =>
      rw [read.eq_def, if_pos hempty]
      cases call with
      | data chunk => exact absurd (List.append_eq_nil_iff.mp hnone).1 chunk.nonempty
      | interrupted => exact ih (by rw [stream, hempty]; exact hnone) hnone
      | eof => rfl
      | failed => rfl

/-- **The loop stores the next line**, where it is complete. -/
theorem lineLoop_complete (got : Str) (h : Complete n (rp.stream calls)) :
    ∃ rp' calls', lineLoop n got rp calls
        = some ((.stored, got ++ (readLoop n (rp.stream calls)).1), rp', calls') ∧
      rp'.stream calls' = (readLoop n (rp.stream calls)).2 ∧ stop calls' = stop calls := by
  induction n generalizing got rp calls with
  | zero => exact ⟨rp, calls, by simp [lineLoop, readLoop], rfl, rfl⟩
  | succ n ih =>
      cases hstream : rp.stream calls with
      | nil => exact absurd (hstream ▸ h) not_complete_nil
      | cons c more =>
          obtain ⟨rp', calls', hread, hrest, hstop⟩ := read_cons hstream
          by_cases hc : c = newline
          · refine ⟨rp', calls', ?_, ?_, hstop⟩
            · simp [lineLoop, readLoop, hread, hc]
            · simp [readLoop, hc, hrest]
          · have hmore : Complete n (rp'.stream calls') := by
              rw [hrest, ← complete_cons hc, ← hstream]
              exact h
            obtain ⟨rp'', calls'', hloop, hrest', hstop'⟩ := ih (got ++ [c]) hmore
            refine ⟨rp'', calls'', ?_, ?_, hstop'.trans hstop⟩
            · simp [lineLoop, readLoop, hread, hc, hloop, hrest]
            · simp [readLoop, hc, hrest', hrest]

/-- Otherwise it stores what there is, and the end of the input decides. -/
theorem lineLoop_incomplete (got : Str) (h : ¬ Complete n (rp.stream calls)) :
    lineLoop n got rp calls = (stop calls).map fun (how, rest) =>
      ((if how = .failed then .failed else if got ++ rp.stream calls = [] then .eof else .stored,
        got ++ rp.stream calls), {}, rest) := by
  induction n generalizing got rp calls with
  | zero => exact absurd (.inr (Nat.zero_le _)) h
  | succ n ih =>
      cases hstream : rp.stream calls with
      | nil =>
          have hrp : rp = {} := congrArg Rio.mk (List.append_eq_nil_iff.mp hstream).1
          rw [lineLoop, read_nil hstream, hrp]
          cases stop calls with
          | none => rfl
          | some x =>
              obtain ⟨how, rest⟩ := x
              cases how <;> simp [Stop.read]
      | cons c more =>
          obtain ⟨rp', calls', hread, hrest, hstop⟩ := read_cons hstream
          rw [hstream] at h
          have hc : c ≠ newline := fun hc => h (.inl (by simp [hc]))
          have hmore : ¬ Complete n (rp'.stream calls') := by
            rwa [hrest, ← complete_cons hc]
          have hloop := ih (got ++ [c]) hmore
          rw [hrest, hstop, List.append_assoc] at hloop
          simp only [lineLoop, hread]
          rw [if_neg (by simpa using hc)]
          exact hloop

theorem readLoop_incomplete {n : Nat} {input : Str} (h : ¬ Complete n input) :
    readLoop n input = (input, []) := by
  induction n generalizing input with
  | zero => exact absurd (.inr (Nat.zero_le _)) h
  | succ n ih =>
      cases input with
      | nil => rfl
      | cons c more =>
          have hc : c ≠ newline := fun hc => h (.inl (by simp [hc]))
          simp [readLoop, hc, ih (mt (complete_cons hc).mpr h)]

/-- A complete line is stored, whatever is to come after it. -/
theorem readlineb_complete {maxlen : Nat} (hmaxlen : 1 < maxlen) (buf : Str)
    (h : Complete (maxlen - 1) (rp.stream calls)) :
    let line := rioReadlineb (rp.stream calls) buf maxlen
    ∃ rp' rest, rp.readlineb buf maxlen calls = some (⟨line.n, line.buf⟩, rp', rest) ∧
      rp'.stream rest = line.rest ∧ stop rest = stop calls := by
  obtain ⟨n, hn⟩ : ∃ n, maxlen - 1 = n + 1 := ⟨maxlen - 2, by omega⟩
  dsimp only
  rw [readlineb, rioReadlineb, hn]
  rw [hn] at h
  obtain ⟨rp', rest, hloop, hrest, hstop⟩ := lineLoop_complete [] h
  have hne : rp.stream calls ≠ [] := by
    intro hnil
    rw [hnil] at h
    exact not_complete_nil h
  refine ⟨rp', rest, ?_, ?_, hstop⟩
  · rw [hloop, if_neg hne]
    rfl
  · rw [hrest, if_neg hne]

/-- Without one the end of the input decides. -/
theorem readlineb_incomplete {maxlen : Nat} (hmaxlen : 1 < maxlen) (buf : Str)
    (h : ¬ Complete (maxlen - 1) (rp.stream calls)) :
    let line := rioReadlineb (rp.stream calls) buf maxlen
    (stop calls = none → rp.readlineb buf maxlen calls = none) ∧
    (∀ rest, stop calls = some (.eof, rest) →
      rp.readlineb buf maxlen calls = some (⟨line.n, line.buf⟩, {}, rest) ∧ line.rest = []) ∧
    ∀ rest, stop calls = some (.failed, rest) →
      ∃ buf', rp.readlineb buf maxlen calls = some (⟨-1, buf'⟩, {}, rest) := by
  obtain ⟨n, hn⟩ : ∃ n, maxlen - 1 = n + 1 := ⟨maxlen - 2, by omega⟩
  dsimp only
  rw [readlineb, rioReadlineb, hn]
  rw [hn] at h
  refine ⟨fun hstop => ?_, fun rest hstop => ?_, fun rest hstop => ?_⟩
  · rw [lineLoop_incomplete [] h, hstop]
    rfl
  · rw [lineLoop_incomplete [] h, hstop, readLoop_incomplete h]
    by_cases hne : rp.stream calls = []
    · simp [hne]
    · simp [hne]
  · rw [lineLoop_incomplete [] h, hstop]
    exact ⟨_, rfl⟩

/--
**A line is read in the same way however its bytes arrive**, in whatever chunks and with whatever
interruptions: it is the next one of the bytes in the internal buffer and those to come.  Nothing
is waited for that the line does not need, and nothing is lost of what comes with it.
-/
theorem lines_by_any_chunks {maxlen : Nat} (hmaxlen : 1 < maxlen) (buf : Str) (rp : Rio)
    (calls : List ReadResult) :
    let line := rioReadlineb (rp.stream calls) buf maxlen
    (Complete (maxlen - 1) (rp.stream calls) → ∃ rp' rest,
      rp.readlineb buf maxlen calls = some (⟨line.n, line.buf⟩, rp', rest) ∧
        rp'.stream rest = line.rest ∧ stop rest = stop calls) ∧
    (¬ Complete (maxlen - 1) (rp.stream calls) →
      (stop calls = none → rp.readlineb buf maxlen calls = none) ∧
      (∀ rest, stop calls = some (.eof, rest) →
        rp.readlineb buf maxlen calls = some (⟨line.n, line.buf⟩, {}, rest) ∧ line.rest = []) ∧
      ∀ rest, stop calls = some (.failed, rest) →
        ∃ buf', rp.readlineb buf maxlen calls = some (⟨-1, buf'⟩, {}, rest)) :=
  ⟨readlineb_complete hmaxlen buf, readlineb_incomplete hmaxlen buf⟩

/-- A request in two chunks, with an interruption between them and the next request behind. -/
def splitRead : List ReadResult :=
  [.data ⟨bytes "PU", by decide, by decide⟩, .interrupted,
    .data ⟨bytes "SH 1\nTOP", by decide, by decide⟩]

theorem lines_by_any_chunks_split :
    ∃ rp' rest, readlineb {} [] maxEncodedLen splitRead
        = some (⟨7, bytes "PUSH 1\n" ++ [nul]⟩, rp', rest) ∧
      rp'.stream rest = bytes "TOP" := by
  have hcomplete : Complete (maxEncodedLen - 1) (stream {} splitRead) := by decide +kernel
  have hline : rioReadlineb (stream {} splitRead) [] maxEncodedLen
      = { n := 7, buf := bytes "PUSH 1\n" ++ [nul], rest := bytes "TOP" } := by decide +kernel
  obtain ⟨rp', rest, hread, hrest, -⟩ :=
    (lines_by_any_chunks (by decide) [] {} splitRead).1 hcomplete
  rw [hline] at hread hrest
  exact ⟨rp', rest, hread, hrest⟩

end Rio

/-! ### Writing -/

section Write

variable {left : Str} {call : WriteResult}

/-- A round gives the kernel a beginning of what is left. -/
theorem writeRound_append {left' : Str} (h : writeRound left call = some left') :
    call.taken left ++ left' = left := by
  cases call with
  | wrote n hpos =>
      cases h
      exact List.take_append_drop n left
  | interrupted =>
      cases h
      rfl
  | failed => cases h

end Write

end KvServer
