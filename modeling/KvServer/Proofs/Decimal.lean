/-
The decimal spelling of an `int`.

`std::to_string` writes a sign and digits, and `std::stoi` takes them back to the number;
what `to_string` writes is short and free of white space, so it can be stored in a table
and sent in a DATA line.
-/
import Mathlib.Data.List.TakeWhile
import Mathlib.Data.Nat.Digits.Lemmas
import KvServer.Model.Arith

namespace KvServer

/-- One character of the spelling. -/
def digitByte (d : Nat) : Byte := UInt8.ofNat (48 + d)

theorem digitByte_facts {d : Nat} (h : d < 10) :
    isDigit (digitByte d) = true ∧ (digitByte d).toNat - 48 = d ∧ isSpace (digitByte d) = false ∧
      digitByte d ≠ nul ∧ digitByte d ≠ 45 ∧ digitByte d ≠ 43 := by
  have hall : ∀ e ∈ List.range 10, isDigit (digitByte e) = true ∧ (digitByte e).toNat - 48 = e ∧
      isSpace (digitByte e) = false ∧ digitByte e ≠ nul ∧ digitByte e ≠ 45 ∧ digitByte e ≠ 43 := by
    decide
  exact hall d (List.mem_range.mpr h)

/-- The digits of a number, most significant first. -/
def decimals (n : Nat) : List Nat :=
  if n = 0 then [0] else (Nat.digits 10 n).reverse

theorem natSpelling_eq (n : Nat) : natSpelling n = (decimals n).map digitByte := by
  unfold natSpelling decimals
  split
  · rfl
  · rfl

theorem decimals_lt {n d : Nat} (h : d ∈ decimals n) : d < 10 := by
  unfold decimals at h
  split at h
  · rw [List.mem_singleton.mp h]
    decide
  · exact Nat.digits_lt_base (by decide) (List.mem_reverse.mp h)

theorem decimals_ne_nil (n : Nat) : decimals n ≠ [] := by
  unfold decimals
  split
  · simp
  · rename_i hn
    rw [ne_eq, List.reverse_eq_nil_iff]
    exact Nat.digits_ne_nil_iff_ne_zero.mpr hn

theorem decimals_length {n : Nat} (h : n < 10 ^ 10) : (decimals n).length ≤ 10 := by
  unfold decimals
  split
  · decide
  · rw [List.length_reverse]
    exact (Nat.digits_length_le_iff (by decide) n).mpr h

/-- Every character of the spelling is one of its digits. -/
theorem mem_natSpelling {n : Nat} {c : Byte} (h : c ∈ natSpelling n) :
    ∃ d < 10, c = digitByte d := by
  rw [natSpelling_eq] at h
  obtain ⟨d, hd, rfl⟩ := List.mem_map.mp h
  exact ⟨d, decimals_lt hd, rfl⟩

theorem natSpelling_ne_nil (n : Nat) : natSpelling n ≠ [] := by
  rw [natSpelling_eq]
  simpa using decimals_ne_nil n

theorem digitsValue_map {ds : List Nat} (h : ∀ d ∈ ds, d < 10) :
    digitsValue (ds.reverse.map digitByte) = Nat.ofDigits 10 ds := by
  induction ds with
  | nil => rfl
  | cons d ds ih =>
      have hd := digitByte_facts (h d List.mem_cons_self)
      have hds := ih fun e he => h e (List.mem_cons_of_mem _ he)
      unfold digitsValue at hds ⊢
      rw [List.reverse_cons, List.map_append, List.foldl_append, hds, Nat.ofDigits_cons]
      simp only [List.map_cons, List.map_nil, List.foldl_cons, List.foldl_nil, hd.2.1]
      exact Nat.add_comm _ _

theorem digitsValue_natSpelling (n : Nat) : digitsValue (natSpelling n) = n := by
  rw [natSpelling_eq]
  unfold decimals
  split
  · rename_i hn
    rw [hn]
    decide
  · rw [digitsValue_map fun d hd => Nat.digits_lt_base (by decide) hd, Nat.ofDigits_digits]

/-! ### Both ways -/

theorem natAbs_lt {v : Int} (h : InInt v) : v.natAbs < 10 ^ 10 := by
  unfold InInt at h
  omega

/-- The decimal spellings of a number: digits, with or without a sign. -/
inductive Spells : Str → Int → Prop
  | digits {ds : Str} (hne : ds ≠ []) (hdigits : ∀ c ∈ ds, isDigit c = true) :
      Spells ds (digitsValue ds)
  | plus {ds : Str} (hne : ds ≠ []) (hdigits : ∀ c ∈ ds, isDigit c = true) :
      Spells (43 :: ds) (digitsValue ds)
  | minus {ds : Str} (hne : ds ≠ []) (hdigits : ∀ c ∈ ds, isDigit c = true) :
      Spells (45 :: ds) (-digitsValue ds)

theorem digit_facts {c : Byte} (h : isDigit c = true) : isSpace c = false ∧ c ≠ 45 ∧ c ≠ 43 := by
  simp only [isDigit, Bool.and_eq_true, decide_eq_true_eq, UInt8.le_iff_toNat_le] at h
  have hlow : 48 ≤ c.toNat := h.1
  refine ⟨?_, ?_, ?_⟩
  · simp only [isSpace, Bool.or_eq_false_iff, Bool.and_eq_false_iff, beq_eq_false_iff_ne,
      decide_eq_false_iff_not, UInt8.le_iff_toNat_le]
    refine ⟨?_, .inr (show ¬ c.toNat ≤ 13 by omega)⟩
    rintro rfl
    exact absurd hlow (by decide)
  · rintro rfl
    exact absurd hlow (by decide)
  · rintro rfl
    exact absurd hlow (by decide)

/-- The string begins with a spelling of the number, and no digit follows it. -/
def Reads (s : Str) (v : Int) : Prop :=
  ∃ spelling rest, s = spelling ++ rest ∧ Spells spelling v ∧
    ∀ c, rest.head? = some c → isDigit c = false

theorem Spells.reads {s : Str} {v : Int} (h : Spells s v) : Reads s v :=
  ⟨s, [], (List.append_nil s).symm, h, nofun⟩

theorem takeWhile_digits {ds rest : Str} (hdigits : ∀ c ∈ ds, isDigit c = true)
    (hend : ∀ c, rest.head? = some c → isDigit c = false) :
    (ds ++ rest).takeWhile isDigit = ds := by
  rw [List.takeWhile_append_of_pos hdigits]
  cases rest with
  | nil => simp
  | cons c rest => simp [hend c rfl]

/-- What `stoi` looks at once the blanks are gone. -/
theorem reads_iff {s : Str} {v : Int} :
    Reads s v ↔ (takeSign s).2.takeWhile isDigit ≠ [] ∧
      v = signedValue (takeSign s).1 ((takeSign s).2.takeWhile isDigit) := by
  constructor
  · rintro ⟨spelling, rest, rfl, hspells, hend⟩
    cases hspells with
    | digits hne hdigits =>
        obtain ⟨c, ds, rfl⟩ := List.exists_cons_of_ne_nil hne
        obtain ⟨-, hminus, hplus⟩ := digit_facts (hdigits c List.mem_cons_self)
        have hsign : takeSign (c :: ds ++ rest) = (false, c :: ds ++ rest) := by
          simp [takeSign, hminus, hplus]
        rw [hsign, takeWhile_digits hdigits hend]
        exact ⟨hne, rfl⟩
    | @plus ds hne hdigits =>
        have hsign : takeSign (43 :: ds ++ rest) = (false, ds ++ rest) := rfl
        rw [hsign, takeWhile_digits hdigits hend]
        exact ⟨hne, rfl⟩
    | @minus ds hne hdigits =>
        have hsign : takeSign (45 :: ds ++ rest) = (true, ds ++ rest) := rfl
        rw [hsign, takeWhile_digits hdigits hend]
        exact ⟨hne, rfl⟩
  · rintro ⟨hne, rfl⟩
    have hdigits : ∀ {s : Str}, ∀ c ∈ s.takeWhile isDigit, isDigit c = true :=
      fun _ => List.mem_takeWhile_imp
    have hend : ∀ {s : Str} c, (s.dropWhile isDigit).head? = some c → isDigit c = false := by
      intro s c hc
      have hnot := List.head?_dropWhile_not isDigit s
      rw [hc] at hnot
      simpa using hnot
    cases s with
    | nil => exact absurd rfl hne
    | cons c s =>
        by_cases hminus : c = 45
        · subst hminus
          refine ⟨45 :: s.takeWhile isDigit, s.dropWhile isDigit, ?_, .minus hne hdigits, hend⟩
          rw [List.cons_append, List.takeWhile_append_dropWhile]
        · by_cases hplus : c = 43
          · subst hplus
            refine ⟨43 :: s.takeWhile isDigit, s.dropWhile isDigit, ?_, .plus hne hdigits, hend⟩
            rw [List.cons_append, List.takeWhile_append_dropWhile]
          · have hsign : takeSign (c :: s) = (false, c :: s) := by simp [takeSign, hminus, hplus]
            rw [hsign] at hne ⊢
            exact ⟨_, _, (List.takeWhile_append_dropWhile).symm, .digits hne hdigits, hend⟩

/-- **What `stoi` accepts**: after blanks a spelling of an `int`, and anything after it. -/
theorem stoi_eq_ok {s : Str} {v : Int} :
    stoi s = .ok v ↔ Reads (s.dropWhile isSpace) v ∧ InInt v := by
  rw [reads_iff]
  unfold stoi
  dsimp only
  split
  · rename_i hnone
    exact ⟨nofun, fun h => absurd hnone h.1.1⟩
  · rename_i hsome
    split
    · rename_i hint
      constructor
      · intro h
        obtain rfl := Except.ok.inj h
        exact ⟨⟨hsome, rfl⟩, hint⟩
      · rintro ⟨⟨-, rfl⟩, -⟩
        rfl
    · rename_i hint
      refine ⟨nofun, ?_⟩
      rintro ⟨⟨-, rfl⟩, hv⟩
      exact absurd hv hint

theorem Spells.dropWhile {s : Str} {v : Int} (h : Spells s v) : s.dropWhile isSpace = s := by
  cases h with
  | digits hne hdigits =>
      obtain ⟨c, ds, rfl⟩ := List.exists_cons_of_ne_nil hne
      simp [(digit_facts (hdigits c List.mem_cons_self)).1]
  | plus =>
      have hblank : isSpace 43 = false := by decide
      simp [hblank]
  | minus =>
      have hblank : isSpace 45 = false := by decide
      simp [hblank]

/-- **`stoi` reads every spelling of an `int`.** -/
theorem stoi_spells {s : Str} {v : Int} (h : Spells s v) (hv : InInt v) : stoi s = .ok v := by
  rw [stoi_eq_ok, h.dropWhile]
  exact ⟨h.reads, hv⟩

theorem spells_toString (v : Int) : Spells (toString v) v := by
  have hdigits : ∀ c ∈ natSpelling v.natAbs, isDigit c = true := by
    intro c hc
    obtain ⟨d, hd, rfl⟩ := mem_natSpelling hc
    exact (digitByte_facts hd).1
  have hvalue := digitsValue_natSpelling v.natAbs
  unfold toString
  by_cases hneg : v < 0
  · rw [if_pos hneg]
    have hminus := Spells.minus (natSpelling_ne_nil v.natAbs) hdigits
    rwa [hvalue, show -((v.natAbs : Nat) : Int) = v by omega] at hminus
  · rw [if_neg hneg]
    have hplain := Spells.digits (natSpelling_ne_nil v.natAbs) hdigits
    rwa [hvalue, show ((v.natAbs : Nat) : Int) = v by omega] at hplain

/-- **`stoi` reads what `to_string` writes.** -/
theorem stoi_toString {v : Int} (h : InInt v) : stoi (toString v) = .ok v :=
  stoi_spells (spells_toString v) h

theorem mem_toString {v : Int} {c : Byte} (h : c ∈ toString v) : isSpace c = false ∧ c ≠ nul := by
  have hdigits : ∀ {d}, d ∈ natSpelling v.natAbs → isSpace d = false ∧ d ≠ nul := by
    intro d hd
    obtain ⟨e, he, rfl⟩ := mem_natSpelling hd
    exact ⟨(digitByte_facts he).2.2.1, (digitByte_facts he).2.2.2.1⟩
  unfold toString at h
  split at h
  · rcases List.mem_cons.mp h with rfl | h
    · decide
    · exact hdigits h
  · exact hdigits h

theorem toString_ne_nil (v : Int) : toString v ≠ [] := by
  unfold toString
  split
  · simp
  · exact natSpelling_ne_nil _

theorem toString_length {v : Int} (h : InInt v) : (toString v).length ≤ 11 := by
  have hlen : (natSpelling v.natAbs).length ≤ 10 := by
    rw [natSpelling_eq, List.length_map]
    exact decimals_length (natAbs_lt h)
  unfold toString
  split
  · rw [List.length_cons]
    omega
  · omega

end KvServer
