import Mathlib.Data.Nat.Digits.Lemmas

/-! Positional numerals: the digits of a number, most significant first. -/
namespace Numeral

/-- The digits of `n` in base `b`; zero has one digit. -/
def numeral (b n : Nat) : List Nat := if n = 0 then [0] else (Nat.digits b n).reverse

/-- The value of a digit string, read from the left. -/
def value (b : Nat) (ds : List Nat) : Nat := ds.foldl (fun v d => v * b + d) 0

variable {b n : Nat} {ds : List Nat}

theorem value_eq_ofDigits (b : Nat) (ds : List Nat) : value b ds = Nat.ofDigits b ds.reverse := by
  unfold value
  induction ds using List.reverseRecOn with
  | nil => rfl
  | append_singleton ds d ih =>
    rw [List.foldl_append, List.reverse_append, List.reverse_singleton, List.singleton_append,
      Nat.ofDigits_cons, ← ih]
    simp only [List.foldl_cons, List.foldl_nil]
    rw [Nat.mul_comm, Nat.add_comm]

theorem value_numeral (b n : Nat) : value b (numeral b n) = n := by
  unfold numeral
  split
  · next h => simp [value, h]
  · rw [value_eq_ofDigits, List.reverse_reverse, Nat.ofDigits_digits]

/-- Leading zeros do not count. -/
theorem value_zeros (b k : Nat) (ds : List Nat) : value b (List.replicate k 0 ++ ds) = value b ds := by
  induction k with
  | zero => rfl
  | succ k ih =>
    rw [List.replicate_succ, List.cons_append, value, List.foldl_cons, Nat.zero_mul]
    exact ih

theorem numeral_of_lt (h : n < b) : numeral b n = [n] := by
  unfold numeral
  split
  · next h0 => rw [h0]
  · next h0 => rw [Nat.digits_of_lt b n h0 h, List.reverse_singleton]

theorem numeral_of_le (hb : 2 ≤ b) (h : b ≤ n) : numeral b n = numeral b (n / b) ++ [n % b] := by
  have hdiv : n / b ≠ 0 := by
    rw [Nat.div_ne_zero_iff]
    omega
  rw [numeral, if_neg (by omega), numeral, if_neg hdiv, Nat.digits_def' hb (by omega),
    List.reverse_cons]

theorem length_pos (b n : Nat) : 0 < (numeral b n).length := by
  unfold numeral
  split
  · simp
  · next h =>
    rw [List.length_reverse, List.length_pos_iff]
    exact Nat.digits_ne_nil_iff_ne_zero.mpr h

theorem lt_base (hb : 2 ≤ b) {d : Nat} (hd : d ∈ numeral b n) : d < b := by
  unfold numeral at hd
  split at hd
  · rw [List.mem_singleton.mp hd]
    omega
  · exact Nat.digits_lt_base hb (List.mem_reverse.mp hd)

/-- No leading zero, except that zero is written with one. -/
theorem head_ne_zero (hn : n ≠ 0) : ∃ d ds, numeral b n = d :: ds ∧ d ≠ 0 := by
  have hne : Nat.digits b n ≠ [] := Nat.digits_ne_nil_iff_ne_zero.mpr hn
  have hlast := Nat.getLast_digit_ne_zero b hn
  rw [numeral, if_neg hn, ← List.dropLast_append_getLast hne, List.reverse_append]
  exact ⟨_, _, rfl, hlast⟩

theorem length_le {k : Nat} (hb : 2 ≤ b) (h : n < b ^ k) (hk : 0 < k) : (numeral b n).length ≤ k := by
  unfold numeral
  split
  · exact hk
  · rw [List.length_reverse]
    exact (Nat.digits_length_le_iff hb n).mpr h

/-- `ds` is the numeral of `n`: digits of the base, with the value `n` and no leading zero except
that of zero itself. -/
structure IsNumeral (b n : Nat) (ds : List Nat) : Prop where
  digits : ∀ d ∈ ds, d < b
  value : value b ds = n
  nonempty : ds ≠ []
  leading : ds.head? = some 0 → ds = [0]

theorem isNumeral_numeral (hb : 2 ≤ b) (n : Nat) : IsNumeral b n (numeral b n) where
  digits := fun _ hd => lt_base hb hd
  value := value_numeral b n
  nonempty := List.length_pos_iff.mp (length_pos b n)
  leading := by
    intro h
    by_cases hn : n = 0
    · rw [numeral, if_pos hn]
    · obtain ⟨d, ds, heq, hd⟩ := head_ne_zero (b := b) hn
      rw [heq, List.head?_cons, Option.some.injEq] at h
      exact absurd h hd

/-- A number has one numeral. -/
theorem IsNumeral.eq_numeral (h : IsNumeral b n ds) (hb : 2 ≤ b) : ds = numeral b n := by
  by_cases hz : ds.head? = some 0
  · have hds := h.leading hz
    have hn : n = 0 := by
      rw [← h.value, hds, Numeral.value, List.foldl_cons, Nat.zero_mul]
      rfl
    rw [numeral, if_pos hn, hds]
  · have hdigits : Nat.digits b n = ds.reverse := by
      rw [← h.value, value_eq_ofDigits]
      refine Nat.digits_ofDigits b hb ds.reverse (fun d hd => h.digits d (List.mem_reverse.mp hd)) ?_
      intro hne hlast
      rw [List.getLast_reverse] at hlast
      exact hz (by rw [List.head?_eq_some_head h.nonempty, hlast])
    have hn : n ≠ 0 := by
      rintro rfl
      rw [Nat.digits_zero] at hdigits
      exact h.nonempty (List.reverse_eq_nil_iff.mp hdigits.symm)
    rw [numeral, if_neg hn, hdigits, List.reverse_reverse]

end Numeral
