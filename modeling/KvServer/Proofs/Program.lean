/-
The requests of a program carry it out.

The rules of the requests are triples over sessions: `At` says what is on the stack of a session
in a transaction, what it sees in the tables and that all its requests have been answered with OK,
and that nothing else of it has changed.
-/
import KvServer.Lib.Triple
import KvServer.Proofs.Modes
import KvServer.Proofs.Postfix
import KvServer.Spec.Program

namespace KvServer

/-- A request, in whatever line it comes. -/
def Solo.asked (p : Platform) (σ : Solo) (m : Message) (σ' : Solo) : Prop :=
  ∃ line, decode (cstr line) = .ok m ∧ σ.run p [line] = σ'

theorem visible_put (st : Store) (table key value : Str) :
    (st.write table key value).visible = Data.put st.visible table key value := by
  funext name k
  rw [visible_write, Data.put]
  by_cases hname : name = table
  · subst hname
    by_cases hk : k = key
    · simp [hk]
    · simp [hk]
  · simp [hname]

section Rules

variable {p : Platform} {σ σ' f : Solo} {ms : List Message} {lines : List Str} {vs : List Str}
  {d d' : Data} {n : Nat} {e : Expr} {v : Int} {prog : List Assign}

theorem asks_cons {m : Message} : Asks lines (m :: ms) ↔
    ∃ line rest, lines = line :: rest ∧ decode (cstr line) = .ok m ∧ Asks rest ms :=
  List.map_eq_cons_iff

/-- What requests may do is what lines that ask for them do. -/
theorem runs_asked :
    Triple.Runs (Solo.asked p) ms σ σ' ↔ ∃ lines, Asks lines ms ∧ σ.run p lines = σ' := by
  induction ms generalizing σ with
  | nil =>
      constructor
      · rintro rfl
        exact ⟨[], rfl, rfl⟩
      · rintro ⟨lines, hlines, rfl⟩
        obtain rfl := List.map_eq_nil_iff.mp hlines
        rfl
  | cons m ms ih =>
      constructor
      · rintro ⟨τ, ⟨line, hm, rfl⟩, hruns⟩
        obtain ⟨rest, hrest, rfl⟩ := ih.mp hruns
        exact ⟨line :: rest, asks_cons.mpr ⟨line, rest, rfl, hm, hrest⟩, Solo.run_append [line] rest⟩
      · rintro ⟨lines, hlines, rfl⟩
        obtain ⟨line, rest, rfl, hm, hrest⟩ := asks_cons.mp hlines
        exact ⟨_, ⟨line, hm, rfl⟩, ih.mpr ⟨rest, hrest, (Solo.run_append [line] rest).symm⟩⟩

/-- `σ` has come to this in a transaction in which it was `f`. -/
structure Solo.At (f : Solo) (vs : List Str) (d : Data) (n : Nat) (σ : Solo) : Prop where
  same : σ = { f with
    stack := vs
    sent := f.sent ++ List.replicate n okLine
    store := { f.store with pending := σ.store.pending } }
  visible : σ.store.visible = d
  /-- What can be seen is in a table that exists. -/
  rooted : ∀ name key text, d name key = some text → f.store.found name = true

/-- A session in a transaction. -/
structure Solo.Transacting (f : Solo) : Prop where
  live : f.status = .live
  loggedIn : f.loggedIn = true
  inTransaction : f.inTransaction = true

theorem Asks.length (h : Asks lines ms) : lines.length = ms.length := by
  have hlength := congrArg List.length h
  rwa [List.length_map, List.length_map] at hlength

namespace Solo.Transacting

/-- **The rule of an expression**: its value, on top of the stack. -/
theorem expr (hf : f.Transacting) (he : e.Evaluates d v) :
    Triple.Holds (Solo.asked p) (Solo.At f vs d n) e.postorder
      (Solo.At f (e.spelling d v :: vs) d (n + e.postorder.length)) := by
  rintro σ σ' ⟨hsame, hvisible, hrooted⟩ hruns
  obtain ⟨lines, hlines, rfl⟩ := runs_asked.mp hruns
  have hlive : σ.status = .live := by rw [hsame]; exact hf.live
  have hin : σ.loggedIn = true := by rw [hsame]; exact hf.loggedIn
  have hshows : σ.store.Shows d e.cells := by
    intro name key text _ htext
    refine ⟨?_, by rw [hvisible, htext]⟩
    rw [hsame]
    exact hrooted name key text htext
  have hleaves := postorder_leaves (p := p) he hlive hin hshows hlines
  rw [hleaves, hlines.length]
  refine ⟨?_, hvisible, hrooted⟩
  rw [hsame]
  simp [Solo.leaves, ← List.replicate_append_replicate]

/-- **The rule of SET**: it stores the value on top of the stack. -/
theorem set (hf : f.Transacting) {table key value : Str} (hfound : f.store.found table = true) :
    Triple.Holds (Solo.asked p) (Solo.At f (value :: vs) d n)
      [{ messageType := .set, args := [table, key] }]
      (Solo.At f vs (d.put table key value) (n + 1)) := by
  refine .one ?_
  rintro σ σ' ⟨hsame, hvisible, hrooted⟩ ⟨line, hm, rfl⟩
  have hrun : σ.run p [line] = { f with
      stack := vs
      sent := f.sent ++ List.replicate (n + 1) okLine
      store := { f.store with pending := (σ.store.write table key value).pending } } := by
    rw [hsame]
    simp [Solo.run, hf.live, Solo.line, hm, Solo.request, hf.loggedIn, Solo.takeSet, Solo.access,
      Message.getTable, Message.getKey, Access.table, hfound, Solo.reach, Solo.set,
      hf.inTransaction, Solo.ok, Store.write, List.replicate_succ']
  rw [hrun]
  refine ⟨rfl, ?_, fun name k text htext => ?_⟩
  · have hwrite := visible_put σ.store table key value
    rw [hvisible] at hwrite
    rw [← hwrite, hsame]
    rfl
  · by_cases hname : name = table
    · rw [hname]
      exact hfound
    · rw [Data.put, Function.update_of_ne hname] at htext
      exact hrooted name k text htext

/-- **The rule of COMMIT**: what the transaction sees is committed. -/
theorem commit (hf : f.Transacting) :
    Triple.Holds (Solo.asked p) (Solo.At f vs d n) [{ messageType := .commit }]
      (fun σ => σ = { f with
        stack := vs
        inTransaction := false
        sent := f.sent ++ List.replicate (n + 1) okLine
        store := ⟨f.store.found, d, fun _ _ => none⟩ }) := by
  refine .one ?_
  rintro σ σ' ⟨hsame, hvisible, -⟩ ⟨line, hm, rfl⟩
  have hcommit : σ.store.commit = ⟨f.store.found, d, fun _ _ => none⟩ := by
    rw [← hvisible, hsame]
    rfl
  have hrun : σ.run p [line] = { σ with inTransaction := false, store := σ.store.commit }.ok := by
    rw [hsame]
    simp [Solo.run, hf.live, Solo.line, hm, Solo.request, hf.loggedIn, Solo.commit,
      hf.inTransaction]
  rw [hrun, hcommit, hsame]
  simp [Solo.ok, List.replicate_succ']

/-- The rule of an assignment. -/
theorem assign (hf : f.Transacting) {a : Assign} (he : a.value.Evaluates d v)
    (hfound : f.store.found a.table = true) :
    Triple.Holds (Solo.asked p) (Solo.At f vs d n) a.requests
      (Solo.At f vs (d.put a.table a.key (a.value.spelling d v)) (n + a.requests.length)) :=
  ((hf.expr he).append (hf.set hfound)).consequence (fun _ h => h) fun σ h => by
    simpa [Assign.requests, Nat.add_assoc] using h

/-- **A program does what it says**: each request is answered with OK, and the stack is as before. -/
theorem program (hf : f.Transacting) (hexec : Program.Executes d prog d')
    (hfound : ∀ a ∈ prog, f.store.found a.table = true) :
    Triple.Holds (Solo.asked p) (Solo.At f vs d n) (Program.requests prog)
      (Solo.At f vs d' (n + (Program.requests prog).length)) := by
  induction hexec generalizing n with
  | nil => exact .nil
  | @cons d d' a rest v he hrest ih =>
      have hfirst : Triple.Holds (Solo.asked p) (Solo.At f vs d n) a.requests _ :=
        hf.assign he (hfound a List.mem_cons_self)
      have hlater := ih (n := n + a.requests.length) fun b hb => hfound b (List.mem_cons_of_mem _ hb)
      refine (hfirst.append hlater).consequence (fun _ h => h) fun σ h => ?_
      rw [Program.requests, List.flatMap_cons, List.length_append, ← Nat.add_assoc]
      exact h

/-- A whole transaction. -/
theorem transaction (hf : f.Transacting) (hexec : Program.Executes d prog d')
    (hfound : ∀ a ∈ prog, f.store.found a.table = true) :
    Triple.Holds (Solo.asked p) (Solo.At f vs d 0) (Program.transaction prog)
      (fun σ => σ = { f with
        stack := vs
        inTransaction := false
        sent := f.sent ++ List.replicate (Program.transaction prog).length okLine
        store := ⟨f.store.found, d', fun _ _ => none⟩ }) :=
  ((hf.program hexec hfound).append hf.commit).consequence (fun _ h => h) fun σ h => by
    rw [h, Program.transaction, List.length_append, Nat.zero_add]
    rfl

end Solo.Transacting

end Rules

end KvServer
