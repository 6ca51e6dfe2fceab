import CircuitSynthesis.BinaryMatrix.Elimination
import CircuitSynthesis.Simulation

/-!
# What can happen to matrices

A caller holds matrices and asks for further ones, made from nothing, from a
circuit or from those at hand, or has one of them changed in place. A request
that is not granted belongs to the history as well; what the caller holds then
is part of the story.
-/

namespace CircuitSynthesis

/-- Why a request was not granted. -/
inductive MatrixRefusal where
  | failed (cause : SynthesisError)
  /-- Rows are added or exchanged that the matrix does not have. -/
  | noSuchRow
  /-- The caller holds no matrix at that position. -/
  | noSuchMatrix
  deriving DecidableEq

/-- One thing to ask for, about the matrices at positions `k` and `l`. -/
inductive MatrixRequest where
  | identity (n : Nat)
  | ofRows (rows : List Nat)
  /-- The linear map of a circuit. -/
  | linearPart (c : Circuit)
  | set (k i j : Nat) (value : Bool)
  | addRow (k dst src : Nat)
  | swapRows (k a b : Nat)
  | gatherRows (k : Nat) (order : List Nat)
  | scatterRows (k : Nat) (order : List Nat)
  | transpose (k : Nat)
  | mul (k l : Nat)
  | inverse (k : Nat)

namespace MatrixRequest

/-- Work on the matrices at hand. -/
abbrev Work := EStateM MatrixRefusal (List BinaryMatrix)

/-- The matrix at a position. -/
def held (k : Nat) : Work BinaryMatrix := do
  let matrices ← get
  match matrices[k]? with
  | some m => return m
  | none => throw .noSuchMatrix

/-- Take in a further matrix, unless there is none. -/
def enter (r : Except SynthesisError BinaryMatrix) : Work Unit := do
  let m ← r.mapError MatrixRefusal.failed
  modify (· ++ [m])

/-- Put another matrix at a position, unless it is missing for want of a row. -/
def replace (k : Nat) : Option BinaryMatrix → Work Unit
  | some m => modify (·.set k m)
  | none => throw .noSuchRow

/-- Change the matrix at a position in place. What is left of it stays at hand,
also where the change fails. -/
def change (k : Nat) (edit : EStateM SynthesisError BinaryMatrix Unit) : Work Unit := do
  let m ← held k
  match edit m with
  | .ok _ m => modify (·.set k m)
  | .error e m =>
    modify (·.set k m)
    throw (.failed e)

/-- What is done about a request. -/
def run : MatrixRequest → Work Unit
  | identity n => enter (BinaryMatrix.identity n)
  | ofRows rows => enter (BinaryMatrix.ofRows rows)
  | linearPart c => enter c.linearPart
  | set k i j value => change k (BinaryMatrix.set i j value)
  | addRow k dst src => do replace k ((← held k).addRow? dst src)
  | swapRows k a b => do replace k ((← held k).swapRows? a b)
  | gatherRows k order => do enter ((← held k).gatherRows order)
  | scatterRows k order => do enter ((← held k).scatterRows order)
  | transpose k => do enter (.ok (← held k).transpose)
  | mul k l => do enter ((← held k).mul (← held l))
  | inverse k => do enter (← held k).inverse

/-- The matrices at hand after a request, granted or not. -/
def perform (matrices : List BinaryMatrix) (request : MatrixRequest) : List BinaryMatrix :=
  stateAfter request.run matrices

end MatrixRequest

/-- The matrices that a list of requests leads to, from none. -/
def BinaryMatrix.ofHistory (requests : List MatrixRequest) : List BinaryMatrix :=
  requests.foldl MatrixRequest.perform []

end CircuitSynthesis
