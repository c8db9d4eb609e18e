import Mathlib.Analysis.SpecialFunctions.Trigonometric.Basic
import Mathlib.Tactic.IntervalCases
import PocketAlgebra.Reduction.Trigonometry

/-!
# The table of exact sines

A whole number of turns is taken from an angle, and what is left is reflected into the first
quarter of a turn. The table holds exact values for the multiples of a sixth and of a quarter of a
half turn, and for no other angles.
-/

namespace PocketAlgebra

namespace Reduction

open Real

/-- The real number `coefficient · √radicand`. -/
noncomputable def Surd.value (s : Surd) : ℝ :=
  s.coefficient * √s.radicand

theorem Surd.value_negate (s : Surd) : s.negate.value = -s.value := by
  simp [Surd.value, Surd.negate]

/-- The angles, in half turns, for which there are exact values. -/
def IsTabulated (t : ℚ) : Prop :=
  (∃ k : ℤ, 4 * t = k) ∨ ∃ k : ℤ, 6 * t = k

variable {t u : ℚ} {s c : Surd} {negative : Bool}

theorem isTabulated_neg_iff : IsTabulated (-t) ↔ IsTabulated t := by
  have hneg {q : ℚ} (h : IsTabulated q) : IsTabulated (-q) :=
    h.imp (fun ⟨k, hk⟩ => ⟨-k, by push_cast; linarith⟩) fun ⟨k, hk⟩ => ⟨-k, by push_cast; linarith⟩
  exact ⟨fun h => neg_neg t ▸ hneg h, hneg⟩

/-- Multiples of a half turn and of its half do not matter. -/
theorem isTabulated_add_iff (n : ℤ) : IsTabulated (t + n / 2) ↔ IsTabulated t := by
  have hadd {q : ℚ} (m : ℤ) (h : IsTabulated q) : IsTabulated (q + m / 2) :=
    h.imp (fun ⟨k, hk⟩ => ⟨k + 2 * m, by push_cast; linarith⟩)
      fun ⟨k, hk⟩ => ⟨k + 3 * m, by push_cast; linarith⟩
  refine ⟨fun h => ?_, hadd n⟩
  have hback := hadd (-n) h
  rwa [Int.cast_neg, neg_div, add_neg_cancel_right] at hback

/-! ## The first quarter -/

theorem mkRat_one_two : mkRat 1 2 = 1 / 2 := by
  decide +kernel

theorem sines_eq : sines = [(0, ⟨0, 1⟩), (1 / 6, ⟨1 / 2, 1⟩), (1 / 4, ⟨1 / 2, 2⟩),
    (1 / 3, ⟨1 / 2, 3⟩), (1 / 2, ⟨1, 1⟩)] := by
  decide +kernel

theorem mem_sines_of_lookup (h : sines.lookup u = some s) : (u, s) ∈ sines := by
  rcases List.lookup_eq_some_iff.mp h with ⟨before, behind, hlist, -⟩
  rw [hlist]
  exact List.mem_append_right _ List.mem_cons_self

/-- An angle of the first quarter of a turn has an entry exactly where it is tabulated. -/
theorem isSome_lookup_iff (hnonneg : 0 ≤ u) (hhalf : u ≤ 1 / 2) :
    (sines.lookup u).isSome = true ↔ IsTabulated u := by
  have hentries : (sines.lookup u).isSome = true ↔
      u = 0 ∨ u = 1 / 6 ∨ u = 1 / 4 ∨ u = 1 / 3 ∨ u = 1 / 2 := by
    rw [List.lookup_isSome_iff, sines_eq]
    simp
  rw [hentries]
  constructor
  · rintro (rfl | rfl | rfl | rfl | rfl)
    · exact .inl ⟨0, by norm_num⟩
    · exact .inr ⟨1, by norm_num⟩
    · exact .inl ⟨1, by norm_num⟩
    · exact .inr ⟨2, by norm_num⟩
    · exact .inl ⟨2, by norm_num⟩
  · rintro (⟨k, hk⟩ | ⟨k, hk⟩)
    · have hlow : (-1 : ℤ) < k := by exact_mod_cast (by linarith : (-1 : ℚ) < k)
      have hhigh : k < (3 : ℤ) := by exact_mod_cast (by linarith : (k : ℚ) < 3)
      have hu : u = k / 4 := by linarith
      interval_cases k <;> norm_num [hu]
    · have hlow : (-1 : ℤ) < k := by exact_mod_cast (by linarith : (-1 : ℚ) < k)
      have hhigh : k < (4 : ℤ) := by exact_mod_cast (by linarith : (k : ℚ) < 4)
      have hu : u = k / 6 := by linarith
      interval_cases k <;> norm_num [hu]

theorem sin_of_lookup (h : sines.lookup u = some s) : sin (π * u) = s.value := by
  have hentry := mem_sines_of_lookup h
  rw [sines_eq] at hentry
  simp only [List.mem_cons, Prod.mk.injEq, List.not_mem_nil, or_false] at hentry
  rcases hentry with ⟨rfl, rfl⟩ | ⟨rfl, rfl⟩ | ⟨rfl, rfl⟩ | ⟨rfl, rfl⟩ | ⟨rfl, rfl⟩
  · simp [Surd.value]
  · have hangle : π * ((1 / 6 : ℚ) : ℝ) = π / 6 := by push_cast; ring
    rw [hangle, sin_pi_div_six]
    simp [Surd.value]
  · have hangle : π * ((1 / 4 : ℚ) : ℝ) = π / 4 := by push_cast; ring
    rw [hangle, sin_pi_div_four]
    simp [Surd.value]
    ring
  · have hangle : π * ((1 / 3 : ℚ) : ℝ) = π / 3 := by push_cast; ring
    rw [hangle, sin_pi_div_three]
    simp [Surd.value]
    ring
  · have hangle : π * ((1 / 2 : ℚ) : ℝ) = π / 2 := by push_cast; ring
    rw [hangle, sin_pi_div_two]
    simp [Surd.value]

/-! ## Folding -/

/-- An angle is reflected into the first quarter of a turn, with the sign of its sine. -/
structure Folds (t u : ℚ) (negative : Bool) : Prop where
  nonneg : 0 ≤ u
  le_half : u ≤ 1 / 2
  exists_int : ∃ m : ℤ, t = m + u ∨ t = m - u
  sin_eq : sin (π * t) = (if negative then -1 else 1) * sin (π * u)

/-- Whole turns change no sine. -/
theorem sin_sub_turns (t : ℚ) (n : ℤ) : sin (π * (t - n * 2 : ℚ)) = sin (π * t) := by
  rw [← sin_sub_int_mul_two_pi (π * t) n]
  congr 1
  push_cast
  ring

/-- Half a turn changes the sign of a sine. -/
theorem sin_sub_half_turn (t : ℚ) : sin (π * (t - 1 : ℚ)) = -sin (π * t) := by
  rw [← sin_sub_pi]
  congr 1
  push_cast
  ring

/-- The angles of a half turn have the same sines from both ends. -/
theorem sin_half_turn_sub (t : ℚ) : sin (π * (1 - t : ℚ)) = sin (π * t) := by
  rw [← sin_pi_sub]
  congr 1
  push_cast
  ring

/-- What is left of an angle once whole turns and half a turn are taken from it. -/
theorem exists_folds (t : ℚ) : ∃ u negative, Folds t u negative ∧
    exactSine? t = (sines.lookup u).map fun s => if negative then s.negate else s := by
  let n : ℤ := ⌊t / 2⌋
  let r : ℚ := t - n * 2
  let v : ℚ := if 1 ≤ r then r - 1 else r
  let u : ℚ := if 1 / 2 < v then 1 - v else v
  have hlow : 0 ≤ r := by linarith [Int.floor_le (t / 2)]
  have hhigh : r < 2 := by linarith [Int.lt_floor_add_one (t / 2)]
  have hr : t = n * 2 + r := by ring
  have hv : (0 ≤ v ∧ v < 1) ∧ (∃ m : ℤ, t = m + v) ∧
      sin (π * t) = (if 1 ≤ r then -1 else 1) * sin (π * v) := by
    rw [← sin_sub_turns t n]
    change _ ∧ _ ∧ sin (π * r) = _
    by_cases hhalf : 1 ≤ r
    · simp only [v, if_pos hhalf]
      refine ⟨⟨by linarith, by linarith⟩, ⟨n * 2 + 1, by push_cast; linarith⟩, ?_⟩
      rw [sin_sub_half_turn, neg_one_mul, neg_neg]
    · simp only [v, if_neg hhalf]
      exact ⟨⟨hlow, by linarith⟩, ⟨n * 2, by push_cast; linarith⟩, (one_mul _).symm⟩
  rcases hv with ⟨⟨hvlow, hvhigh⟩, ⟨m, hm⟩, hsin⟩
  refine ⟨u, decide (1 ≤ r), ?_, ?_⟩
  · by_cases hquarter : 1 / 2 < v
    · have hu : u = 1 - v := if_pos hquarter
      rw [hu]
      refine ⟨by linarith, by linarith, ⟨m + 1, .inr (by push_cast; linarith)⟩, ?_⟩
      simp only [decide_eq_true_eq]
      rw [sin_half_turn_sub, hsin]
    · have hu : u = v := if_neg hquarter
      rw [hu]
      refine ⟨hvlow, by linarith, ⟨m, .inl hm⟩, ?_⟩
      simp only [decide_eq_true_eq]
      rw [hsin]
  · simp only [exactSine?, mkRat_one_two, decide_eq_true_eq]
    rfl

theorem Folds.isTabulated_iff (h : Folds t u negative) : IsTabulated t ↔ IsTabulated u := by
  rcases h.exists_int with ⟨m, hm | hm⟩
  · rw [← isTabulated_add_iff (2 * m) (t := u), hm]
    push_cast
    ring_nf
  · rw [← isTabulated_neg_iff (t := u), ← isTabulated_add_iff (2 * m) (t := -u), hm]
    push_cast
    ring_nf

/-! ## Exact sines and cosines -/

theorem isSome_exactSine?_iff (t : ℚ) : (exactSine? t).isSome = true ↔ IsTabulated t := by
  rcases exists_folds t with ⟨u, negative, hfolds, hsine⟩
  rw [hsine, Option.isSome_map, isSome_lookup_iff hfolds.nonneg hfolds.le_half,
    hfolds.isTabulated_iff]

theorem sin_of_exactSine? (h : exactSine? t = some s) : sin (π * t) = s.value := by
  rcases exists_folds t with ⟨u, negative, hfolds, hsine⟩
  rw [hsine] at h
  rcases Option.map_eq_some_iff.mp h with ⟨s', hs', rfl⟩
  rw [hfolds.sin_eq, sin_of_lookup hs']
  cases negative with
  | true => exact (neg_one_mul _).trans s'.value_negate.symm
  | false => exact one_mul _

theorem isSome_exactCosine?_iff (t : ℚ) : (exactCosine? t).isSome = true ↔ IsTabulated t := by
  have hquarter := isTabulated_add_iff (t := t) 1
  rw [Int.cast_one] at hquarter
  rw [exactCosine?, isSome_exactSine?_iff, mkRat_one_two, hquarter]

theorem cos_of_exactCosine? (h : exactCosine? t = some c) : cos (π * t) = c.value := by
  rw [exactCosine?] at h
  rw [← sin_of_exactSine? h, mkRat_one_two, ← sin_add_pi_div_two]
  congr 1
  push_cast
  ring

/-! ## The numbers of the table -/

/-- The numbers of the table and their opposites. -/
def surds : List Surd :=
  sines.map Prod.snd ++ sines.map fun (_, s) => s.negate

theorem mem_surds_of_exactSine? (h : exactSine? t = some s) : s ∈ surds := by
  rcases exists_folds t with ⟨u, negative, -, hsine⟩
  rw [hsine] at h
  rcases Option.map_eq_some_iff.mp h with ⟨s', hs', rfl⟩
  have hentry := mem_sines_of_lookup hs'
  cases negative with
  | true => exact List.mem_append_right _ (List.mem_map_of_mem hentry)
  | false => exact List.mem_append_left _ (List.mem_map_of_mem (f := Prod.snd) hentry)

theorem Surd.value_sq (s : Surd) : s.value ^ 2 = (s.coefficient ^ 2 * s.radicand : ℚ) := by
  rw [Surd.value, mul_pow, sq_sqrt s.radicand.cast_nonneg]
  push_cast
  rfl

theorem mem_surds_of_exactCosine? (h : exactCosine? t = some c) : c ∈ surds :=
  mem_surds_of_exactSine? h

/-- The squares of sine and cosine add up to one. -/
theorem square_add_square (hs : exactSine? t = some s) (hc : exactCosine? t = some c) :
    s.coefficient ^ 2 * s.radicand + c.coefficient ^ 2 * c.radicand = 1 := by
  have hunit := sin_sq_add_cos_sq (π * t)
  rw [sin_of_exactSine? hs, cos_of_exactCosine? hc, s.value_sq, c.value_sq] at hunit
  exact_mod_cast hunit

end Reduction

end PocketAlgebra
