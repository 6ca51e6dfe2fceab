import CircuitSynthesis.Proofs.PhasePolynomial

/-!
# Collecting terms

Terms are added one by one to a list that is kept in the order of the masks. A
new angle joins the term of its mask if there is one (`get?_add_self`), so after a
whole list the term of a mask holds what the list gives to it, from left to
right (`get?_addAll`). With exact angles this total does not depend on the
order. The phase of a basis state grows by what each new term gives to it,
although the terms are summed in another order than they came in; hence phases
are additive (`phaseAt_additive`).
-/

namespace CircuitSynthesis

namespace Angle

theorem isExact_add {a b : Angle} (ha : a.isExact = true) (hb : b.isExact = true) :
    (a + b).isExact = true := by
  obtain ⟨j, rfl⟩ := isExact_iff.mp ha
  obtain ⟨k, rfl⟩ := isExact_iff.mp hb
  rfl

theorem eighths_add {a b : Angle} (ha : a.isExact = true) (hb : b.isExact = true) :
    (a + b).eighths = a.eighths + b.eighths := by
  obtain ⟨j, rfl⟩ := isExact_iff.mp ha
  obtain ⟨k, rfl⟩ := isExact_iff.mp hb
  rfl

/-- The sum of the angles, from left to right, if there are any. -/
def total : List Angle → Option Angle
  | [] => none
  | a :: rest => some (rest.foldl (· + ·) a)

theorem total_eq_none_iff {l : List Angle} : total l = none ↔ l = [] := by
  cases l <;> simp [total]

theorem total_eq_some_sum {l : List Angle} (hne : l ≠ []) (h : ∀ a ∈ l, a.isExact = true) :
    total l = some (sum l) := by
  cases l with
  | nil => exact absurd rfl hne
  | cons a rest =>
    obtain ⟨k, rfl⟩ := isExact_iff.mp (h a List.mem_cons_self)
    show some (rest.foldl (· + ·) (turn k)) = some (rest.foldl (· + ·) (turn (0 + k)))
    rw [zero_add]

theorem total_perm {l l' : List Angle} (hperm : l.Perm l') (h : ∀ a ∈ l, a.isExact = true) :
    total l = total l' := by
  by_cases hnil : l = []
  · subst hnil
    rw [hperm.nil_eq]
  · have hnil' : l' ≠ [] := fun he => hnil (he ▸ hperm).eq_nil
    rw [total_eq_some_sum hnil h, total_eq_some_sum hnil' fun a ha => h a (hperm.mem_iff.mpr ha),
      sum_perm hperm h]

end Angle

namespace PhasePolynomial

variable {p q : PhasePolynomial} {mask : Nat} {angle : Angle} {terms l : List (Nat × Angle)}

/-! ## What is listed for a mask -/

/-- A polynomial is known by the angles of its masks. -/
theorem eq_of_get?_eq (h : ∀ mask, p.get? mask = q.get? mask) : p = q := by
  have hperm : p.terms.Perm q.terms := by
    refine (List.perm_ext_iff_of_nodup p.nodup_terms q.nodup_terms).mpr fun t => ?_
    rw [← get?_eq_some_iff, ← get?_eq_some_iff, h]
  have hterms : p.terms = q.terms := by
    refine hperm.eq_of_pairwise (fun s t _ _ hst hts => ?_) p.ascending q.ascending
    exact absurd hst (Nat.lt_asymm hts)
  cases p
  cases q
  cases hterms
  rfl

theorem find?_insertWith_self (combine : Angle → Angle → Angle) (mask : Nat) (angle : Angle)
    (h : terms.Pairwise fun s t => s.1 < t.1) :
    (insertWith combine mask angle terms).find? (·.1 == mask) =
      some (mask, ((terms.find? (·.1 == mask)).map Prod.snd).elim angle (combine · angle)) := by
  induction terms with
  | nil => simp [insertWith]
  | cons t rest ih =>
    obtain ⟨hlater, hrest⟩ := List.pairwise_cons.mp h
    rw [insertWith]
    split
    · next hlt =>
      -- All masks that follow are greater still.
      have hnone : (t :: rest).find? (·.1 == mask) = none := by
        refine List.find?_eq_none.mpr fun s hs => ?_
        have hge : t.1 ≤ s.1 := by
          rcases List.mem_cons.mp hs with rfl | hs
          · exact Nat.le_refl _
          · exact Nat.le_of_lt (hlater s hs)
        have hlt' : mask < t.1 := hlt
        simpa using (show s.1 ≠ mask by omega)
      rw [hnone]
      simp
    · split
      · next heq =>
        obtain rfl : mask = t.1 := heq
        simp
      · next hne =>
        have hskip : (t.1 == mask) = false := by simpa using fun he => hne (Eq.symm he)
        rw [List.find?_cons, List.find?_cons, hskip]
        exact ih hrest

theorem find?_insertWith_of_ne (combine : Angle → Angle → Angle) (angle : Angle) {m : Nat}
    (hm : m ≠ mask) (terms : List (Nat × Angle)) :
    (insertWith combine mask angle terms).find? (·.1 == m) = terms.find? (·.1 == m) := by
  have hskip : (mask == m) = false := by simpa using hm.symm
  induction terms with
  | nil => simpa [insertWith] using hm.symm
  | cons t rest ih =>
    rw [insertWith]
    split
    · rw [List.find?_cons, hskip]
    · split
      · next heq =>
        obtain rfl : mask = t.1 := heq
        rw [List.find?_cons, List.find?_cons, hskip]
      · rw [List.find?_cons, List.find?_cons, ih]

theorem get?_add_self (p : PhasePolynomial) (mask : Nat) (angle : Angle) :
    (p.add mask angle).get? mask = some ((p.get? mask).elim angle (· + angle)) := by
  unfold get? add
  simp only
  rw [find?_insertWith_self _ _ _ p.ascending]
  rfl

theorem get?_add_of_ne (p : PhasePolynomial) (angle : Angle) {m : Nat} (hm : m ≠ mask) :
    (p.add mask angle).get? m = p.get? m := by
  unfold get? add
  simp only
  rw [find?_insertWith_of_ne _ _ hm]

/-- The angles that a list of terms gives to a mask, in their order. -/
def given (mask : Nat) (terms : List (Nat × Angle)) : List Angle :=
  (terms.filter (·.1 == mask)).map Prod.snd

/-- After a list of terms a mask has what it had and what the list gives to it. -/
theorem get?_addAll (p : PhasePolynomial) (l : List (Nat × Angle)) (mask : Nat) :
    (p.addAll l).get? mask = Angle.total ((p.get? mask).toList ++ given mask l) := by
  induction l generalizing p with
  | nil =>
    show p.get? mask = Angle.total ((p.get? mask).toList ++ [])
    cases p.get? mask <;> rfl
  | cons t rest ih =>
    rw [addAll, List.foldl_cons]
    show ((p.add t.1 t.2).addAll rest).get? mask = _
    rw [ih]
    by_cases hmask : mask = t.1
    · subst hmask
      have hgiven : given t.1 (t :: rest) = t.2 :: given t.1 rest := by simp [given]
      rw [get?_add_self, hgiven]
      cases p.get? t.1 <;> rfl
    · have hgiven : given mask (t :: rest) = given mask rest := by
        rw [given, List.filter_cons_of_neg (by simpa using Ne.symm hmask)]
        rfl
      rw [get?_add_of_ne p t.2 hmask, hgiven]

theorem get?_ofList (l : List (Nat × Angle)) (mask : Nat) :
    (ofList l).get? mask = Angle.total (given mask l) := get?_addAll empty l mask

/-- The masks of a list are added, and a mask stays when its angles cancel. -/
theorem mem_masks_addAll :
    mask ∈ (p.addAll l).masks ↔ mask ∈ p.masks ∨ ∃ t ∈ l, t.1 = mask := by
  have hgiven : given mask l = [] ↔ ¬∃ t ∈ l, t.1 = mask := by
    rw [given, List.map_eq_nil_iff, List.filter_eq_nil_iff]
    simp only [beq_iff_eq, not_exists, not_and]
  rw [← not_iff_not, not_or, ← get?_eq_none_iff, ← get?_eq_none_iff, get?_addAll, ← hgiven,
    Angle.total_eq_none_iff, List.append_eq_nil_iff, Option.toList_eq_nil_iff]

/-- With exact angles, terms can be collected in any order. -/
theorem ofList_perm {l l' : List (Nat × Angle)} (hperm : l.Perm l')
    (h : ∀ t ∈ l, t.2.isExact = true) : ofList l = ofList l' := by
  refine eq_of_get?_eq fun mask => ?_
  rw [get?_ofList, get?_ofList]
  refine Angle.total_perm ((hperm.filter _).map Prod.snd) fun a ha => ?_
  obtain ⟨t, ht, rfl⟩ := List.mem_map.mp ha
  exact h t (List.mem_filter.mp ht).1

/-! ## Phases -/

/-- The eighth turns that a basis state picks up from terms. -/
def eighthsAt (x : Nat) : List (Nat × Angle) → Fin 8
  | [] => 0
  | t :: rest => (if Bits.oddOverlap t.1 x then t.2.eighths else 0) + eighthsAt x rest

theorem eighthsAt_cons (x : Nat) (t : Nat × Angle) (rest : List (Nat × Angle)) :
    eighthsAt x (t :: rest) =
      (if Bits.oddOverlap t.1 x then t.2.eighths else 0) + eighthsAt x rest := rfl

theorem sum_eighths_picked (x : Nat) (terms : List (Nat × Angle)) :
    ((picked x terms).map Angle.eighths).sum = eighthsAt x terms := by
  induction terms with
  | nil => rfl
  | cons t rest ih =>
    rw [eighthsAt_cons, ← ih]
    unfold picked
    rw [List.filter_cons]
    split
    · rw [List.map_cons, List.map_cons, List.sum_cons]
    · rw [zero_add]

theorem sum_picked (x : Nat) (h : ∀ t ∈ terms, t.2.isExact = true) :
    Angle.sum (picked x terms) = .turn (eighthsAt x terms) := by
  have hpicked : ∀ a ∈ picked x terms, a.isExact = true := by
    intro a ha
    obtain ⟨t, ht, rfl⟩ := mem_of_mem_picked ha
    exact h t ht
  rw [Angle.sum_eq_turn hpicked, sum_eighths_picked]

theorem eighthsAt_insertWith (x : Nat) (hterms : ∀ t ∈ terms, t.2.isExact = true)
    (hangle : angle.isExact = true) :
    eighthsAt x (insertWith (· + ·) mask angle terms) =
      (if Bits.oddOverlap mask x then angle.eighths else 0) + eighthsAt x terms := by
  induction terms with
  | nil => exact eighthsAt_cons x (mask, angle) []
  | cons t rest ih =>
    obtain ⟨ht, hrest⟩ := List.forall_mem_cons.mp hterms
    rw [insertWith]
    split
    · exact eighthsAt_cons x (mask, angle) _
    · split
      · next heq =>
        obtain rfl : mask = t.1 := heq
        rw [eighthsAt_cons, eighthsAt_cons, Angle.eighths_add ht hangle]
        split
        · ac_rfl
        · rw [zero_add, zero_add]
      · rw [eighthsAt_cons, eighthsAt_cons, ih hrest]
        ac_rfl

theorem isExact_insertWith (hterms : ∀ t ∈ terms, t.2.isExact = true)
    (hangle : angle.isExact = true) :
    ∀ t ∈ insertWith (· + ·) mask angle terms, t.2.isExact = true := by
  induction terms with
  | nil => simpa [insertWith] using hangle
  | cons t rest ih =>
    obtain ⟨ht, hrest⟩ := List.forall_mem_cons.mp hterms
    rw [insertWith]
    split
    · exact List.forall_mem_cons.mpr ⟨hangle, hterms⟩
    · split
      · exact List.forall_mem_cons.mpr ⟨Angle.isExact_add ht hangle, hrest⟩
      · exact List.forall_mem_cons.mpr ⟨ht, ih hrest⟩

/-- Adding exact terms keeps angles exact and adds up what a basis state picks up. -/
theorem eighthsAt_addAll (x : Nat) (hp : ∀ t ∈ p.terms, t.2.isExact = true)
    (hl : ∀ t ∈ l, t.2.isExact = true) :
    (∀ t ∈ (p.addAll l).terms, t.2.isExact = true) ∧
      eighthsAt x (p.addAll l).terms = eighthsAt x p.terms + eighthsAt x l := by
  induction l generalizing p with
  | nil => exact ⟨hp, (add_zero _).symm⟩
  | cons t rest ih =>
    obtain ⟨ht, hrest⟩ := List.forall_mem_cons.mp hl
    obtain ⟨hexact, hsum⟩ := ih (p := p.add t.1 t.2) (isExact_insertWith hp ht) hrest
    refine ⟨hexact, hsum.trans ?_⟩
    rw [eighthsAt_cons, add, eighthsAt_insertWith x hp ht]
    ac_rfl

theorem phaseAt_addAll (x : Nat) (hp : ∀ t ∈ p.terms, t.2.isExact = true)
    (hl : ∀ t ∈ l, t.2.isExact = true) :
    (p.addAll l).phaseAt x = p.phaseAt x + Angle.sum (picked x l) := by
  obtain ⟨hexact, hsum⟩ := eighthsAt_addAll x hp hl
  show Angle.sum (picked x (p.addAll l).terms) = Angle.sum (picked x p.terms) + _
  rw [sum_picked x hexact, sum_picked x hp, sum_picked x hl, hsum, Angle.turn_add_turn]

/-- **Phases are additive.** A basis state picks up from collected exact terms
the sum of the listed angles whose masks it has odd overlap with, whether masks
are repeated or not; and the order of the list makes no difference to the
polynomial. From the sum of two polynomials it picks up the sum of what they
give. Whatever the angles, the masks are always listed in strictly ascending
order: those that there were and those that were added, and no others. -/
theorem phaseAt_additive :
    (∀ l : List (Nat × Angle), (∀ t ∈ l, t.2.isExact = true) →
      (∀ x, (ofList l).phaseAt x =
        Angle.sum ((l.filter fun t => Bits.oddOverlap t.1 x).map Prod.snd)) ∧
      ∀ l', l'.Perm l → ofList l' = ofList l) ∧
    (∀ p q : PhasePolynomial, (∀ t ∈ p.terms, t.2.isExact = true) →
      (∀ t ∈ q.terms, t.2.isExact = true) →
      ∀ x, (p.extend q).phaseAt x = p.phaseAt x + q.phaseAt x) ∧
    ∀ (p : PhasePolynomial) (l : List (Nat × Angle)), (p.addAll l).masks.Pairwise (· < ·) ∧
      ∀ mask, mask ∈ (p.addAll l).masks ↔ mask ∈ p.masks ∨ ∃ t ∈ l, t.1 = mask := by
  refine ⟨fun l hl => ⟨fun x => ?_, fun l' hperm => (ofList_perm hperm.symm hl).symm⟩,
    fun p q hp hq x => phaseAt_addAll x hp hq, fun p l => ⟨?_, fun mask => mem_masks_addAll⟩⟩
  · have hphase := phaseAt_addAll (p := empty) x (by simp [empty]) hl
    have hempty : empty.phaseAt x = .turn 0 := rfl
    rw [sum_picked x hl, hempty, Angle.turn_add_turn, zero_add] at hphase
    exact hphase.trans (sum_picked x hl).symm
  · exact List.pairwise_map.mpr (p.addAll l).ascending

/-- Four terms for three masks, out of order; the angles of one mask cancel. -/
theorem phaseAt_additive_repeated :
    let l : List (Nat × Angle) := [(5, .turn 1), (3, .turn 6), (5, .turn 7), (2, .turn 3)]
    (∀ t ∈ l, t.2.isExact = true) ∧ (ofList l).phaseAt 2 = .turn 1 ∧
      ofList l.reverse = ofList l ∧
      ((ofList l).extend (ofList l)).phaseAt 2 = .turn 2 ∧
      (ofList l).masks.Pairwise (· < ·) ∧ 5 ∈ (ofList l).masks := by
  intro l
  have hexact : ∀ t ∈ l, t.2.isExact = true := by simp [l, Angle.isExact]
  obtain ⟨hlists, hsums, hmasks⟩ := phaseAt_additive
  obtain ⟨hphase, hreordered⟩ := hlists l hexact
  have hvalue : (ofList l).phaseAt 2 = .turn 1 := (hphase 2).trans (by decide +kernel)
  have hcollected : ∀ t ∈ (ofList l).terms, t.2.isExact = true := by decide +kernel
  have hsum := hsums _ _ hcollected hcollected 2
  rw [hvalue] at hsum
  obtain ⟨hascending, hmem⟩ := hmasks empty l
  exact ⟨hexact, hvalue, hreordered _ l.reverse_perm, hsum, hascending,
    (hmem 5).mpr (.inr ⟨(5, .turn 1), by simp [l], rfl⟩)⟩

end PhasePolynomial

end CircuitSynthesis
