import CircuitSynthesis.Proofs.Bits
import CircuitSynthesis.Synthesis.Cascade

/-!
# Toffoli gates as permutations of patterns

A Toffoli gate whose target is not among its controls undoes itself, so the
reverse of a list of such gates undoes the list. The list `Toffoli.route`
carries its source to its goal, and since every gate of it is controlled by
one of the two patterns, it does not touch a pattern below both.
-/

namespace CircuitSynthesis.Toffoli

/-- All wires are among the first `n`, and the target is not a control. -/
structure WellFormed (n : Nat) (g : Toffoli) : Prop where
  controls_lt : g.controls < 2 ^ n
  target_lt : g.target < n
  free : g.controls.testBit g.target = false

/-! ## One gate -/

theorem act_of_covers {g : Toffoli} {x : Nat} (h : Bits.covers x g.controls = true) :
    g.act x = x ^^^ 2 ^ g.target := if_pos h

theorem act_of_not_covers {g : Toffoli} {x : Nat} (h : Bits.covers x g.controls = false) :
    g.act x = x := by
  unfold act
  rw [h]
  rfl

/-- A gate does not touch a pattern below its controls. -/
theorem act_of_lt {g : Toffoli} {x : Nat} (h : x < g.controls) : g.act x = x := by
  apply act_of_not_covers
  unfold Bits.covers
  have hle : x &&& g.controls ≤ x := Nat.and_le_left
  have hne : x &&& g.controls ≠ g.controls := by omega
  simpa using hne

/-- A gate undoes itself. -/
theorem act_act {g : Toffoli} (hfree : g.controls.testBit g.target = false) (x : Nat) :
    g.act (g.act x) = x := by
  cases h : Bits.covers x g.controls with
  | true =>
    rw [act_of_covers h, act_of_covers (by rw [Bits.covers_xor_two_pow hfree]; exact h),
      Nat.xor_assoc, Nat.xor_self, Nat.xor_zero]
  | false => rw [act_of_not_covers h, act_of_not_covers h]

theorem act_lt {n : Nat} {g : Toffoli} (hg : g.WellFormed n) {x : Nat} (hx : x < 2 ^ n) :
    g.act x < 2 ^ n := by
  cases h : Bits.covers x g.controls with
  | true =>
    rw [act_of_covers h]
    exact Nat.xor_lt_two_pow hx (Nat.pow_lt_pow_right (by omega) hg.target_lt)
  | false => rwa [act_of_not_covers h]

/-! ## Lists of gates -/

/-- The action of a list of gates, the first one first. -/
def run (gates : List Toffoli) (x : Nat) : Nat := gates.foldl (fun x g => g.act x) x

@[simp] theorem run_nil (x : Nat) : run [] x = x := rfl

@[simp] theorem run_cons (g : Toffoli) (gates : List Toffoli) (x : Nat) :
    run (g :: gates) x = run gates (g.act x) := rfl

theorem run_append (first second : List Toffoli) (x : Nat) :
    run (first ++ second) x = run second (run first x) := by
  simp [run]

theorem run_lt {n : Nat} {gates : List Toffoli} (h : ∀ g ∈ gates, g.WellFormed n) {x : Nat}
    (hx : x < 2 ^ n) : run gates x < 2 ^ n := by
  induction gates generalizing x with
  | nil => exact hx
  | cons g gates ih =>
    rw [run_cons]
    exact ih (fun g' hg' => h g' (List.mem_cons_of_mem _ hg'))
      (act_lt (h g List.mem_cons_self) hx)

theorem run_of_lt {gates : List Toffoli} {x : Nat} (h : ∀ g ∈ gates, x < g.controls) :
    run gates x = x := by
  induction gates with
  | nil => rfl
  | cons g gates ih =>
    rw [run_cons, act_of_lt (h g List.mem_cons_self)]
    exact ih fun g' hg' => h g' (List.mem_cons_of_mem _ hg')

/-- The reverse of a list undoes the list. -/
theorem run_reverse_run {n : Nat} {gates : List Toffoli} (h : ∀ g ∈ gates, g.WellFormed n)
    (x : Nat) : run gates.reverse (run gates x) = x := by
  induction gates generalizing x with
  | nil => rfl
  | cons g gates ih =>
    rw [List.reverse_cons, run_append, run_cons g gates x,
      ih fun g' hg' => h g' (List.mem_cons_of_mem _ hg')]
    exact act_act (h g List.mem_cons_self).free x

theorem run_injective {n : Nat} {gates : List Toffoli} (h : ∀ g ∈ gates, g.WellFormed n)
    {x y : Nat} (hxy : run gates x = run gates y) : x = y := by
  rw [← run_reverse_run h x, hxy, run_reverse_run h y]

/-! ## Routes -/

/-- Under fixed controls that a pattern contains, a list of targets outside
the controls is flipped position by position. -/
theorem testBit_run_map {controls : Nat} {targets : List Nat} {x : Nat}
    (hcovers : Bits.covers x controls = true) (hnodup : targets.Nodup)
    (hfree : ∀ t ∈ targets, controls.testBit t = false) (i : Nat) :
    (run (targets.map (⟨controls, ·⟩)) x).testBit i = (x.testBit i ^^ decide (i ∈ targets)) := by
  induction targets generalizing x with
  | nil => simp
  | cons t targets ih =>
    obtain ⟨hnew, hnodup⟩ := List.nodup_cons.mp hnodup
    have ht : controls.testBit t = false := hfree t List.mem_cons_self
    rw [List.map_cons, run_cons, act_of_covers hcovers,
      ih ((Bits.covers_xor_two_pow ht).trans hcovers) hnodup
        (fun s hs => hfree s (List.mem_cons_of_mem _ hs)),
      Nat.testBit_xor, Nat.testBit_two_pow]
    by_cases hi : t = i
    · subst hi
      simp [hnew]
    · simp [hi, Ne.symm hi]

/-- A route ends at its goal. -/
theorem run_route (source goal : Nat) : run (route source goal) source = goal := by
  have hsource : Bits.covers source source = true := Bits.covers_iff.mpr fun _ h => h
  -- After the first half the pattern holds the positions of both ends.
  have hunion : ∀ i, (run ((Bits.missing goal source).map (⟨source, ·⟩)) source).testBit i =
      (source.testBit i || goal.testBit i) := by
    intro i
    rw [testBit_run_map hsource (Bits.nodup_missing goal source) (by simp)]
    cases hs : source.testBit i <;> cases hg : goal.testBit i <;> simp [hs, hg]
  have hgoal : Bits.covers (run ((Bits.missing goal source).map (⟨source, ·⟩)) source) goal =
      true := by
    rw [Bits.covers_iff]
    intro i hi
    rw [hunion i, hi, Bool.or_true]
  apply Nat.eq_of_testBit_eq
  intro i
  unfold route
  rw [run_append, testBit_run_map hgoal (Bits.nodup_missing source goal) (by simp), hunion i]
  cases hs : source.testBit i <;> cases hg : goal.testBit i <;> simp [hs, hg]

/-- The gates of a route are controlled by its source or by its goal. -/
theorem controls_of_mem_route {source goal : Nat} {g : Toffoli} (h : g ∈ route source goal) :
    g.controls = source ∨ g.controls = goal := by
  unfold route at h
  rcases List.mem_append.mp h with h | h
  · obtain ⟨t, -, rfl⟩ := List.mem_map.mp h
    exact .inl rfl
  · obtain ⟨t, -, rfl⟩ := List.mem_map.mp h
    exact .inr rfl

theorem wellFormed_of_mem_route {n source goal : Nat} (hsource : source < 2 ^ n)
    (hgoal : goal < 2 ^ n) : ∀ g ∈ route source goal, g.WellFormed n := by
  intro g hg
  unfold route at hg
  rcases List.mem_append.mp hg with hg | hg
  · obtain ⟨t, ht, rfl⟩ := List.mem_map.mp hg
    obtain ⟨hin, hout⟩ := Bits.mem_missing.mp ht
    exact ⟨hsource, Bits.lt_of_testBit hgoal hin, hout⟩
  · obtain ⟨t, ht, rfl⟩ := List.mem_map.mp hg
    obtain ⟨hin, hout⟩ := Bits.mem_missing.mp ht
    exact ⟨hgoal, Bits.lt_of_testBit hsource hin, hout⟩

/-- A route leaves the patterns below both of its ends alone. -/
theorem run_route_of_lt {source goal x : Nat} (hsource : x < source) (hgoal : x < goal) :
    run (route source goal) x = x := by
  apply run_of_lt
  intro g hg
  rcases controls_of_mem_route hg with h | h <;> omega

/-- A route run backwards leaves the patterns below both of its ends alone. -/
theorem run_reverse_route_of_lt {source goal x : Nat} (hsource : x < source) (hgoal : x < goal) :
    run (route source goal).reverse x = x := by
  apply run_of_lt
  intro g hg
  rcases controls_of_mem_route (List.mem_reverse.mp hg) with h | h <;> omega

end CircuitSynthesis.Toffoli
