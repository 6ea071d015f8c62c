/-
Splitting a list into the runs between separators.

`tokens sep` is what repeated extraction from a text stream computes: skip
separators, take everything up to the next one, and so on until nothing is left.
`Runs` says the same without an algorithm: the list is a sequence of non-empty,
separator-free runs, each ended by a separator or by the end of the list, with
separators around them.  `tokens_eq_iff` says the two agree, and that is the only
fact about the tokenizer anything else needs.
-/
import Mathlib.Data.List.TakeWhile
import Mathlib.Tactic.Common

namespace Lexing

variable {α : Type} (sep : α → Bool)

/-- One extraction: the next run and what follows it, if there is a run. -/
def extract (s : List α) : Option (List α × List α) :=
  match s.dropWhile sep with
  | [] => none
  | c :: cs =>
      some ((c :: cs).takeWhile fun x => !sep x, (c :: cs).dropWhile fun x => !sep x)

/-- At most `n` extractions. -/
def extractUpTo : Nat → List α → List (List α)
  | 0, _ => []
  | n + 1, s =>
      match extract sep s with
      | none => []
      | some (token, rest) => token :: extractUpTo n rest

/-- All of them: each takes at least one element, so the length is fuel enough. -/
def tokens (s : List α) : List (List α) :=
  extractUpTo sep s.length s

/-- `s` is the given runs, in order, with separators around and between them. -/
inductive Runs : List α → List (List α) → Prop
  | nil {gap : List α} (hgap : ∀ c ∈ gap, sep c = true) : Runs gap []
  | cons {gap token rest : List α} {more : List (List α)}
      (hgap : ∀ c ∈ gap, sep c = true)
      (hne : token ≠ []) (htoken : ∀ c ∈ token, sep c = false)
      (hend : ∀ c, rest.head? = some c → sep c = true)
      (hrest : Runs rest more) : Runs (gap ++ token ++ rest) (token :: more)

variable {sep}

/-! ### One extraction

`extract` is `operator>>` on a stream: it skips the separators in front and takes what is up
to the next one.
-/

theorem extract_eq_none {s : List α} : extract sep s = none ↔ ∀ c ∈ s, sep c = true := by
  unfold extract
  cases hs : s.dropWhile sep with
  | nil => simpa using List.dropWhile_eq_nil_iff.mp hs
  | cons c cs =>
      simp only [reduceCtorEq, false_iff]
      intro hall
      rw [List.dropWhile_eq_nil_iff.mpr hall] at hs
      exact absurd hs (by simp)

theorem takeWhile_token {token rest : List α} (htoken : ∀ c ∈ token, sep c = false)
    (hend : ∀ c, rest.head? = some c → sep c = true) :
    (token ++ rest).takeWhile (fun x => !sep x) = token ∧
      (token ++ rest).dropWhile (fun x => !sep x) = rest := by
  have hpos : ∀ c ∈ token, (!sep c) = true := fun c hc => by simp [htoken c hc]
  rw [List.takeWhile_append_of_pos hpos, List.dropWhile_append_of_pos hpos]
  cases rest with
  | nil => simp
  | cons c cs => simp [hend c rfl]

/-- Extraction takes the first run off. -/
theorem extract_append {gap token rest : List α} (hgap : ∀ c ∈ gap, sep c = true)
    (hne : token ≠ []) (htoken : ∀ c ∈ token, sep c = false)
    (hend : ∀ c, rest.head? = some c → sep c = true) :
    extract sep (gap ++ token ++ rest) = some (token, rest) := by
  obtain ⟨htake, hdrop⟩ := takeWhile_token htoken hend
  unfold extract
  rw [List.append_assoc, List.dropWhile_append_of_pos hgap]
  cases token with
  | nil => exact absurd rfl hne
  | cons c cs =>
      have hc : sep c = false := htoken c (by simp)
      have hstop : (c :: cs ++ rest).dropWhile sep = c :: (cs ++ rest) := by simp [hc]
      rw [hstop]
      exact congrArg some (Prod.ext htake hdrop)

/-- What an extraction returns is a run with its surroundings. -/
theorem extract_eq_some {s token rest : List α} (h : extract sep s = some (token, rest)) :
    ∃ gap, s = gap ++ token ++ rest ∧ (∀ c ∈ gap, sep c = true) ∧ token ≠ [] ∧
      (∀ c ∈ token, sep c = false) ∧ (∀ c, rest.head? = some c → sep c = true) := by
  unfold extract at h
  cases hs : s.dropWhile sep with
  | nil => simp [hs] at h
  | cons c cs =>
      simp only [hs, Option.some.injEq, Prod.mk.injEq] at h
      obtain ⟨rfl, rfl⟩ := h
      have hc : sep c = false := by
        have := List.head?_dropWhile_not sep s
        simpa [hs] using this
      refine ⟨s.takeWhile sep, ?_, fun x hx => ?_, by simp [hc], fun x hx => ?_, fun x hx => ?_⟩
      · rw [List.append_assoc, List.takeWhile_append_dropWhile, ← hs,
          List.takeWhile_append_dropWhile]
      · simpa using List.mem_takeWhile_imp hx
      · simpa using List.mem_takeWhile_imp hx
      · have := List.head?_dropWhile_not (fun x => !sep x) (c :: cs)
        rw [hx] at this
        simpa using this

/-! ### All of them

Extraction is repeated until it fails, which is after as many times as there are runs; the
fuel is the length of the list, and every run takes at least one place.
-/

theorem extractUpTo_eq {s : List α} {toks : List (List α)} (h : Runs sep s toks) :
    ∀ n, s.length ≤ n → extractUpTo sep n s = toks := by
  induction h with
  | nil hgap =>
      intro n _
      cases n with
      | zero => rfl
      | succ n => simp [extractUpTo, extract_eq_none.mpr hgap]
  | @cons gap token rest more hgap hne htoken hend _ ih =>
      intro n hn
      have hpos : 0 < token.length := List.length_pos_iff.mpr hne
      simp only [List.length_append] at hn
      cases n with
      | zero => omega
      | succ n =>
          simp only [extractUpTo, extract_append hgap hne htoken hend]
          rw [ih n (by omega)]

theorem runs_exists (sep : α → Bool) :
    ∀ (n : Nat) (s : List α), s.length ≤ n → ∃ toks, Runs sep s toks := by
  intro n
  induction n with
  | zero =>
      intro s hs
      rw [List.eq_nil_of_length_eq_zero (Nat.le_zero.mp hs)]
      exact ⟨[], .nil (by simp)⟩
  | succ n ih =>
      intro s hs
      cases he : extract sep s with
      | none => exact ⟨[], .nil (extract_eq_none.mp he)⟩
      | some p =>
          obtain ⟨token, rest⟩ := p
          obtain ⟨gap, hsplit, hgap, hne, htoken, hend⟩ := extract_eq_some he
          have hpos : 0 < token.length := List.length_pos_iff.mpr hne
          have hlen : s.length = gap.length + token.length + rest.length := by
            simp only [hsplit, List.length_append]
          obtain ⟨more, hmore⟩ := ih rest (by omega)
          exact ⟨token :: more, hsplit ▸ .cons hgap hne htoken hend hmore⟩

/-- **The tokenizer returns exactly the maximal separator-free runs, in order.** -/
theorem tokens_eq_iff {s : List α} {toks : List (List α)} :
    tokens sep s = toks ↔ Runs sep s toks := by
  constructor
  · intro h
    obtain ⟨toks', hruns⟩ := runs_exists sep s.length s (Nat.le_refl _)
    rw [← h, tokens, extractUpTo_eq hruns _ (Nat.le_refl _)]
    exact hruns
  · intro h
    exact extractUpTo_eq h _ (Nat.le_refl _)

theorem tokens_runs (s : List α) : Runs sep s (tokens sep s) := tokens_eq_iff.mp rfl

/-- Every run is non-empty and free of separators. -/
theorem Runs.mem {s : List α} {toks : List (List α)} (h : Runs sep s toks) :
    ∀ token ∈ toks, token ≠ [] ∧ ∀ c ∈ token, sep c = false := by
  induction h with
  | nil _ => intro token ht; simp at ht
  | cons _ hne htoken _ _ ih =>
      intro token ht
      rcases List.mem_cons.mp ht with rfl | ht
      · exact ⟨hne, htoken⟩
      · exact ih token ht

/-- Runs laid out with a gap before each of them and one after the last. -/
theorem runs_spaced {toks : List (List α × List α)} {last : List α}
    (h : ∀ p ∈ toks, p.1 ≠ [] ∧ (∀ c ∈ p.1, sep c = true) ∧ p.2 ≠ [] ∧ ∀ c ∈ p.2, sep c = false)
    (hlast : ∀ c ∈ last, sep c = true) :
    Runs sep ((toks.map fun p => p.1 ++ p.2).flatten ++ last) (toks.map Prod.snd) := by
  induction toks with
  | nil => exact .nil (by simpa using hlast)
  | cons p more ih =>
      obtain ⟨-, hgap, hne, htoken⟩ := h p (by simp)
      have hmore := ih fun q hq => h q (by simp [hq])
      simp only [List.map_cons, List.flatten_cons, List.append_assoc]
      rw [← List.append_assoc]
      refine .cons hgap hne htoken (fun c hc => ?_) hmore
      -- what follows a run is the next gap, or the one after the last run
      cases more with
      | nil => exact hlast c (List.mem_of_mem_head? (by simpa using hc))
      | cons q more =>
          obtain ⟨hq, hgap, -⟩ := h q (by simp)
          obtain ⟨d, ds, hd⟩ := List.exists_cons_of_ne_nil hq
          have : d = c := by simpa [hd] using hc
          exact hgap c (by simp [hd, this])

/-- A separator put in front does not matter. -/
theorem Runs.cons_sep {c : α} {s : List α} {toks : List (List α)} (h : Runs sep s toks)
    (hc : sep c = true) : Runs sep (c :: s) toks := by
  have hfront {gap : List α} (hgap : ∀ d ∈ gap, sep d = true) : ∀ d ∈ c :: gap, sep d = true := by
    intro d hd
    rcases List.mem_cons.mp hd with rfl | hd
    · exact hc
    · exact hgap d hd
  cases h with
  | nil hgap => exact .nil (hfront hgap)
  | cons hgap hne htoken hend hrest => exact .cons (hfront hgap) hne htoken hend hrest

/-- Two lists that do not meet inside a run have the runs of both. -/
theorem Runs.append {s t : List α} {toks more : List (List α)} (h : Runs sep s toks)
    (ht : ∀ c, t.head? = some c → sep c = true) (hmore : Runs sep t more) :
    Runs sep (s ++ t) (toks ++ more) := by
  induction h with
  | @nil gap hgap =>
      induction gap with
      | nil => exact hmore
      | cons c gap ih =>
          exact (ih fun d hd => hgap d (List.mem_cons_of_mem _ hd)).cons_sep (hgap c (by simp))
  | @cons gap token rest toks hgap hne htoken hend _ ih =>
      rw [List.append_assoc, List.cons_append]
      refine .cons hgap hne htoken (fun c hc => ?_) ih
      cases rest with
      | nil => exact ht c hc
      | cons d rest => exact hend c hc

/-- A leading separator does not matter. -/
theorem Runs.of_cons {c : α} {s : List α} {toks : List (List α)} (h : Runs sep (c :: s) toks)
    (hc : sep c = true) : Runs sep s toks := by
  generalize hs : c :: s = s' at h
  cases h with
  | nil hgap => exact .nil fun d hd => hgap d (hs ▸ List.mem_cons_of_mem _ hd)
  | @cons gap token rest more hgap hne htoken hend hrest =>
      cases gap with
      | nil =>
          cases token with
          | nil => exact absurd rfl hne
          | cons d ds =>
              have hd : sep d = false := htoken d (by simp)
              rw [← (List.cons.inj hs).1, hc] at hd
              exact absurd hd (by simp)
      | cons d gap =>
          obtain ⟨-, rfl⟩ := List.cons.inj hs
          exact .cons (fun x hx => hgap x (List.mem_cons_of_mem _ hx)) hne htoken hend hrest

/-- A run is no longer than what it was cut from, and holds nothing else. -/
theorem Runs.sublist {s : List α} {toks : List (List α)} (h : Runs sep s toks) :
    toks.flatten.Sublist s := by
  induction h with
  | nil _ => simp
  | @cons gap token rest more _ _ _ _ _ ih =>
      rw [List.flatten_cons]
      exact (List.sublist_append_right gap token).append ih

/-- Each run together with a separator before it takes no more room than it has, if the list does
not begin inside a run. -/
theorem Runs.length_le {s : List α} {toks : List (List α)} (h : Runs sep s toks)
    (hs : ∀ c, s.head? = some c → sep c = true) :
    toks.flatten.length + toks.length ≤ s.length := by
  induction h with
  | nil _ => simp
  | @cons gap token rest more _ hne htoken hend _ ih =>
      have hgap : gap ≠ [] := by
        rintro rfl
        obtain ⟨c, cs, rfl⟩ := List.exists_cons_of_ne_nil hne
        have hc : sep c = true := hs c rfl
        rw [htoken c (by simp)] at hc
        cases hc
      have hpos : 0 < gap.length := List.length_pos_iff.mpr hgap
      have hrest := ih hend
      simp only [List.flatten_cons, List.length_cons, List.length_append]
      omega

end Lexing
