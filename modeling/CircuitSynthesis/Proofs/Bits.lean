import CircuitSynthesis.Bits

/-!
# Facts about bit sets

Bounds and membership for sets of positions, shared by the theory of Toffoli
gates, matrices and parities. The parity of the overlap with a fixed set is
linear over symmetric difference (`oddOverlap_xor`), and the number of positions
in a symmetric difference counts what either set misses (`weight_xor`). Counting
up by one moves weight and flipped positions in step (`weight_xor_succ`).
-/

namespace CircuitSynthesis.Bits

/-- A set of positions below `n` has no other members. -/
theorem lt_of_testBit {n s i : Nat} (hs : s < 2 ^ n) (hi : s.testBit i = true) : i < n := by
  have hle := Nat.ge_two_pow_of_testBit hi
  exact (Nat.pow_lt_pow_iff_right (by omega)).mp (Nat.lt_of_le_of_lt hle hs)

theorem testBit_eq_false_of_le {n s i : Nat} (hs : s < 2 ^ n) (hi : n ≤ i) :
    s.testBit i = false := by
  cases h : s.testBit i with
  | false => rfl
  | true => exact absurd (lt_of_testBit hs h) (by omega)

/-- Two sets with the same highest position differ only below it. -/
theorem xor_lt_of_same_highest {i a b : Nat} (ha : 2 ^ i ≤ a) (ha' : a < 2 ^ (i + 1))
    (hb : 2 ^ i ≤ b) (hb' : b < 2 ^ (i + 1)) : a ^^^ b < 2 ^ i := by
  rw [Nat.pow_succ] at ha' hb'
  have hone : ∀ x, 2 ^ i ≤ x → x < 2 ^ i * 2 → x / 2 ^ i = 1 := fun x hx hx' =>
    Nat.div_eq_of_lt_le (by omega) (by omega)
  have hdiv : (a ^^^ b) / 2 ^ i = 0 := by
    rw [Nat.xor_div_two_pow, hone a ha ha', hone b hb hb', Nat.xor_self]
  exact (Nat.div_eq_zero_iff_lt (Nat.two_pow_pos i)).mp hdiv

/-- A set of positions up to `k` either leaves `k` out or adds it to a set of
lower positions. -/
theorem lt_or_exists_xor {k s : Nat} (hs : s < 2 ^ (k + 1)) :
    s < 2 ^ k ∨ ∃ t < 2 ^ k, s = 2 ^ k ^^^ t := by
  by_cases hlow : s < 2 ^ k
  · exact .inl hlow
  · refine .inr ⟨2 ^ k ^^^ s, xor_lt_of_same_highest (Nat.le_refl _) ?_ (by omega) hs, ?_⟩
    · exact Nat.pow_lt_pow_right (by omega) (Nat.lt_succ_self k)
    · rw [← Nat.xor_assoc, Nat.xor_self, Nat.zero_xor]

theorem nodup_positions (s : Nat) : (positions s).Nodup := List.nodup_range.filter _

theorem nodup_missing (s t : Nat) : (missing s t).Nodup := (nodup_positions s).filter _

/-- Flipping a position outside `t` does not change whether `t` is contained. -/
theorem covers_xor_two_pow {x t i : Nat} (h : t.testBit i = false) :
    covers (x ^^^ 2 ^ i) t = covers x t := by
  unfold covers
  have hmask : (x ^^^ 2 ^ i) &&& t = x &&& t := by
    apply Nat.eq_of_testBit_eq
    intro j
    rw [Nat.testBit_and, Nat.testBit_and, Nat.testBit_xor, Nat.testBit_two_pow]
    by_cases hj : i = j
    · subst hj
      simp [h]
    · simp [hj]
  rw [hmask]

/-! ## Weights -/

theorem weight_eq_length {s : Nat} {l : List Nat} (hnodup : l.Nodup)
    (hmem : ∀ i, i ∈ l ↔ s.testBit i = true) : weight s = l.length := by
  rw [weight_eq_length_positions]
  have hperm := (List.perm_ext_iff_of_nodup (nodup_positions s) hnodup).mpr fun i =>
    mem_positions.trans (hmem i).symm
  exact hperm.length_eq

theorem weight_eq_countP {n s : Nat} (h : s < 2 ^ n) :
    weight s = (List.range n).countP s.testBit := by
  rw [List.countP_eq_length_filter]
  apply weight_eq_length (List.nodup_range.filter _)
  intro i
  rw [List.mem_filter, List.mem_range, and_iff_right_iff_imp]
  exact lt_of_testBit h

@[simp] theorem weight_zero : weight 0 = 0 := rfl

/-- The weight, one position at a time. -/
theorem weight_eq_mod_two_add (s : Nat) : weight s = s % 2 + weight (s / 2) := by
  have hhalf : s / 2 < 2 ^ s := Nat.lt_of_le_of_lt (Nat.div_le_self s 2) Nat.lt_two_pow_self
  have hs : s < 2 ^ (s + 1) := by
    rw [Nat.pow_succ]
    omega
  have hbits : s.testBit ∘ Nat.succ = (s / 2).testBit := by
    funext i
    exact Nat.testBit_succ s i
  rw [weight_eq_countP hs, weight_eq_countP hhalf, List.range_succ_eq_map, List.countP_cons,
    List.countP_map, hbits, Nat.testBit_zero, Nat.add_comm]
  rcases Nat.mod_two_eq_zero_or_one s with h | h <;> simp [h]

theorem weight_two_pow_sub_one (i : Nat) : weight (2 ^ i - 1) = i := by
  have hpos : 0 < 2 ^ i := Nat.two_pow_pos i
  rw [weight_eq_countP (n := i) (by omega), List.countP_eq_length.mpr, List.length_range]
  intro j hj
  simpa using hj

/-- Counting up by one sets one position and clears the others that it flips. -/
theorem weight_xor_succ (k : Nat) : weight (k ^^^ (k + 1)) + weight (k + 1) = weight k + 2 := by
  induction k using Nat.strongRecOn with
  | ind k ih =>
    have hdiv : (k ^^^ (k + 1)) / 2 = k / 2 ^^^ (k + 1) / 2 := Nat.xor_div_two
    have hmod : (k ^^^ (k + 1)) % 2 = 1 := Nat.xor_mod_two_eq_one.mpr (by omega)
    rw [weight_eq_mod_two_add (k ^^^ (k + 1)), weight_eq_mod_two_add (k + 1),
      weight_eq_mod_two_add k, hdiv, hmod]
    rcases Nat.mod_two_eq_zero_or_one k with heven | hodd
    · rw [show (k + 1) / 2 = k / 2 by omega, Nat.xor_self, weight_zero]
      omega
    · -- The carry goes on with the upper half.
      have hhalf := ih (k / 2) (by omega)
      rw [show (k + 1) / 2 = k / 2 + 1 by omega]
      omega

theorem weight_le {n s : Nat} (h : s < 2 ^ n) : weight s ≤ n := by
  rw [weight_eq_countP h]
  simpa using List.countP_le_length (p := s.testBit) (l := List.range n)

/-- Two sets differ in what the one misses of the other, on either side. -/
theorem weight_xor (s t : Nat) :
    weight (s ^^^ t) = (missing s t).length + (missing t s).length := by
  rw [← List.length_append]
  apply weight_eq_length
  · refine List.nodup_append.mpr ⟨nodup_missing s t, nodup_missing t s, ?_⟩
    rintro i hi j hj rfl
    rw [mem_missing] at hi hj
    rw [hi.1] at hj
    cases hj.2
  · intro i
    rw [List.mem_append, mem_missing, mem_missing, Nat.testBit_xor]
    cases s.testBit i <;> cases t.testBit i <;> simp

/-! ## Parities -/

theorem countP_xor_mod_two (f g : Nat → Bool) (l : List Nat) :
    l.countP (fun i => f i ^^ g i) % 2 = (l.countP f + l.countP g) % 2 := by
  induction l with
  | nil => rfl
  | cons i rest ih =>
    rw [List.countP_cons, List.countP_cons, List.countP_cons]
    cases f i <;> cases g i <;> simp <;> omega

/-- Overlap is linear over symmetric difference. -/
theorem oddOverlap_xor (s t x : Nat) :
    oddOverlap (s ^^^ t) x = (oddOverlap s x ^^ oddOverlap t x) := by
  have hs : s &&& x < 2 ^ x := Nat.lt_of_le_of_lt Nat.and_le_right Nat.lt_two_pow_self
  have ht : t &&& x < 2 ^ x := Nat.lt_of_le_of_lt Nat.and_le_right Nat.lt_two_pow_self
  have hsum : (s ^^^ t) &&& x < 2 ^ x := Nat.lt_of_le_of_lt Nat.and_le_right Nat.lt_two_pow_self
  have hbits : ((s ^^^ t) &&& x).testBit = fun i => (s &&& x).testBit i ^^ (t &&& x).testBit i := by
    funext i
    rw [Nat.testBit_and, Nat.testBit_and, Nat.testBit_and, Nat.testBit_xor,
      Bool.and_xor_distrib_right]
  have hcount := countP_xor_mod_two (s &&& x).testBit (t &&& x).testBit (List.range x)
  unfold oddOverlap
  rw [weight_eq_countP hs, weight_eq_countP ht, weight_eq_countP hsum, hbits, hcount, Nat.add_mod]
  rcases Nat.mod_two_eq_zero_or_one ((List.range x).countP (s &&& x).testBit) with h | h <;>
    rcases Nat.mod_two_eq_zero_or_one ((List.range x).countP (t &&& x).testBit) with h' | h' <;>
    rw [h, h'] <;> rfl

theorem oddOverlap_two_pow (i x : Nat) : oddOverlap (2 ^ i) x = x.testBit i := by
  have hbit : ∀ j, (2 ^ i &&& x).testBit j = true ↔ i = j ∧ x.testBit i = true := by
    intro j
    rw [Nat.testBit_and, Nat.testBit_two_pow, Bool.and_eq_true, decide_eq_true_iff]
    exact and_congr_right fun h => by rw [h]
  unfold oddOverlap
  cases hx : x.testBit i with
  | false =>
    rw [weight_eq_length (l := []) .nil fun j => by rw [hbit, hx]; simp]
    rfl
  | true =>
    rw [weight_eq_length (l := [i]) (List.pairwise_singleton _ i) fun j => by
      rw [hbit, hx, List.mem_singleton]; simp [eq_comm]]
    rfl

end CircuitSynthesis.Bits
