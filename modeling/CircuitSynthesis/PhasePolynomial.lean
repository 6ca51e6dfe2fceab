import CircuitSynthesis.Bits
import CircuitSynthesis.Synthesis.Error

/-!
# Phase polynomials

A phase polynomial gives angles to parities of qubits. A basis state picks up
the angles of the parities it has odd overlap with. Each parity has at most
one term, and the terms are listed by ascending mask.
-/

namespace CircuitSynthesis

/-- Angles by parity mask. -/
structure PhasePolynomial where
  terms : List (Nat × Angle)
  ascending : terms.Pairwise fun s t => s.1 < t.1

namespace PhasePolynomial

/-- No terms. -/
def empty : PhasePolynomial := ⟨[], .nil⟩

instance : Inhabited PhasePolynomial := ⟨empty⟩

/-- Insert a term in its place; an angle already there is combined with the
new one. -/
def insertWith (combine : Angle → Angle → Angle) (mask : Nat) (angle : Angle) :
    List (Nat × Angle) → List (Nat × Angle)
  | [] => [(mask, angle)]
  | (m, a) :: rest =>
    if mask < m then (mask, angle) :: (m, a) :: rest
    else if mask = m then (m, combine a angle) :: rest
    else (m, a) :: insertWith combine mask angle rest

theorem fst_mem_insertWith {combine : Angle → Angle → Angle} {mask : Nat} {angle : Angle}
    {terms : List (Nat × Angle)} {t : Nat × Angle} (h : t ∈ insertWith combine mask angle terms) :
    t.1 = mask ∨ ∃ s ∈ terms, s.1 = t.1 := by
  induction terms with
  | nil => simp_all [insertWith]
  | cons s rest ih =>
    rw [insertWith] at h
    split at h
    · rcases List.mem_cons.1 h with rfl | h
      · exact .inl rfl
      · exact .inr ⟨t, h, rfl⟩
    · split at h
      · rcases List.mem_cons.1 h with rfl | h
        · exact .inr ⟨s, List.mem_cons_self, rfl⟩
        · exact .inr ⟨t, List.mem_cons_of_mem _ h, rfl⟩
      · rcases List.mem_cons.1 h with rfl | h
        · exact .inr ⟨s, List.mem_cons_self, rfl⟩
        · rcases ih h with h | ⟨r, hr, he⟩
          · exact .inl h
          · exact .inr ⟨r, List.mem_cons_of_mem _ hr, he⟩

theorem ascending_insertWith (combine : Angle → Angle → Angle) (mask : Nat) (angle : Angle)
    {terms : List (Nat × Angle)} (h : terms.Pairwise fun s t => s.1 < t.1) :
    (insertWith combine mask angle terms).Pairwise fun s t => s.1 < t.1 := by
  induction terms with
  | nil => simp [insertWith]
  | cons s rest ih =>
    obtain ⟨hs, hrest⟩ := List.pairwise_cons.1 h
    rw [insertWith]
    split
    · next hlt =>
      refine List.pairwise_cons.2 ⟨fun t ht => ?_, h⟩
      rcases List.mem_cons.1 ht with rfl | ht
      · exact hlt
      · exact Nat.lt_trans hlt (hs t ht)
    · split
      · exact List.pairwise_cons.2 ⟨hs, hrest⟩
      · next hge hne =>
        refine List.pairwise_cons.2 ⟨fun t ht => ?_, ih hrest⟩
        rcases fst_mem_insertWith ht with he | ⟨r, hr, he⟩
        · have : ¬mask < s.1 := hge
          have : ¬mask = s.1 := hne
          show s.1 < t.1
          omega
        · exact he ▸ hs r hr

/-- Add an angle to the term of a mask. -/
def add (p : PhasePolynomial) (mask : Nat) (angle : Angle) : PhasePolynomial :=
  ⟨insertWith (· + ·) mask angle p.terms, ascending_insertWith _ _ _ p.ascending⟩

/-- Give a mask this angle, whatever it had. -/
def put (p : PhasePolynomial) (mask : Nat) (angle : Angle) : PhasePolynomial :=
  ⟨insertWith (fun _ a => a) mask angle p.terms, ascending_insertWith _ _ _ p.ascending⟩

/-- Add all terms of a list, in order. -/
def addAll (p : PhasePolynomial) (terms : List (Nat × Angle)) : PhasePolynomial :=
  terms.foldl (fun p t => p.add t.1 t.2) p

/-- Collect a list of terms; repeated masks add up. -/
def ofList (terms : List (Nat × Angle)) : PhasePolynomial := empty.addAll terms

/-- The sum of two polynomials. -/
def extend (p q : PhasePolynomial) : PhasePolynomial := p.addAll q.terms

/-- The angle of a mask. -/
def get? (p : PhasePolynomial) (mask : Nat) : Option Angle :=
  (p.terms.find? (·.1 == mask)).map Prod.snd

/-- Keep the terms that satisfy a condition. -/
def filter (p : PhasePolynomial) (keep : Nat × Angle → Bool) : PhasePolynomial :=
  ⟨p.terms.filter keep, p.ascending.filter keep⟩

/-- Without the term of a mask. -/
def erase (p : PhasePolynomial) (mask : Nat) : PhasePolynomial := p.filter (·.1 != mask)

/-- The masks, ascending. -/
def masks (p : PhasePolynomial) : List Nat := p.terms.map Prod.fst

def size (p : PhasePolynomial) : Nat := p.terms.length

def isEmpty (p : PhasePolynomial) : Bool := p.terms.isEmpty

/-- The terms that turn something. -/
def nonzero (p : PhasePolynomial) : PhasePolynomial := p.filter (!·.2.isZero)

/-- Refuse the first mask that is zero or reaches beyond `width` qubits. -/
def validate (p : PhasePolynomial) (width : Nat) : Except SynthesisError Unit :=
  match p.masks.find? fun m => m == 0 || !Bits.fits width m with
  | some mask => .error (.invalidParity mask width)
  | none => .ok ()

/-- The phase a basis state picks up. -/
def phaseAt (p : PhasePolynomial) (x : Nat) : Angle :=
  Angle.sum ((p.terms.filter fun t => Bits.oddOverlap t.1 x).map Prod.snd)

end PhasePolynomial

end CircuitSynthesis
