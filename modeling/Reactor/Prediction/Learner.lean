import Reactor.Prediction.Tally

/-!
# Learned types

* `Learner` : for each signature `operation(types)`, how often each result type was seen.
* `InputShape` : what is known of an input without computing it.
* `Learner.learn`, `Learner.predict` : count a result, and add up what was counted for an input.
* `Learner.merge` : takes over the entries of another learner that are not too old.

A lambda without a result stands for every type that its own prediction holds, so one call may have
several signatures.
-/

namespace Reactor

/-- What was seen for one signature. -/
structure LearnedEntry where
  counts : Counts := []
  /-- When it was last seen, in milliseconds since the epoch. -/
  updated : Nat := 0
  deriving DecidableEq, Repr, Inhabited

/-- What was seen, by signature. -/
structure Learner where
  /-- The age in milliseconds from which entries are not taken over. -/
  expiry : Option Nat := none
  entries : Entries String LearnedEntry := []
  deriving DecidableEq, Repr, Inhabited

/-- What is known of an input without computing it. -/
inductive InputShape where
  /-- It has a value of this type. -/
  | known (type : ValueType)
  /-- It is yet to be computed by an operation. -/
  | pending (operation : String) (inputs : List InputShape)
  /-- It is nested too deeply. -/
  | unknown
  deriving Repr, Inhabited

namespace Learner

/-- The inputs that a signature names. -/
def maxInputs : Nat := 10

/-- The most signatures that one call has. -/
def maxSignatures : Nat := 64

/-- The depth up to which the inputs of inputs are looked at. -/
def maxNesting : Nat := 8

/-- The first `maxSignatures` choices of one type for each input, in lexicographic order, each as
the names of the types with hyphens between them. -/
def signatures : List (List ValueType) → List String
  | [] => [""]
  | first :: rest =>
    rest.foldl
      (fun done candidates =>
        (done.flatMap fun front => candidates.map fun ty => front ++ "-" ++ ty.name).take
          maxSignatures)
      ((first.map ValueType.name).take maxSignatures)

/-- The keys of a call whose inputs may have the given types. -/
def keys (operation : String) (candidates : List (List ValueType)) : List String :=
  (signatures candidates).map fun signature => operation ++ "(" ++ signature ++ ")"

/-- All that was seen under some keys. -/
def lookup (learner : Learner) (keys : List String) : Tally :=
  keys.foldl
    (fun tally key =>
      match Entries.get? learner.entries key with
      | some entry => tally.addAll entry.counts
      | none => tally)
    {}

mutual

/-- The types that an input may have. -/
def candidates (learner : Learner) : InputShape → List ValueType
  | .known ty => [ty]
  | .unknown => [.any]
  | .pending operation inputs =>
    let types := (learner.lookup (keys operation (learner.allCandidates inputs))).types
    if types.isEmpty then [.any] else types

/-- The types that each of the inputs may have. -/
def allCandidates (learner : Learner) : List InputShape → List (List ValueType)
  | [] => []
  | input :: inputs => learner.candidates input :: learner.allCandidates inputs

end

/-- The keys under which a call is counted. -/
def callKeys (learner : Learner) (operation : String) (inputs : List InputShape) : List String :=
  keys operation (learner.allCandidates (inputs.take maxInputs))

/-- Counts one result of a call. -/
def learn (learner : Learner) (now : Nat) (operation : String) (inputs : List InputShape)
    (output : ValueType) : Learner :=
  { learner with
    entries := (learner.callKeys operation inputs).foldl
      (fun entries key =>
        let entry := (Entries.get? entries key).getD {}
        Entries.insert entries key { counts := entry.counts.add output 1, updated := now })
      learner.entries }

/-- What was seen for a call. -/
def predict (learner : Learner) (operation : String) (inputs : List InputShape) : Tally :=
  learner.lookup (learner.callKeys operation inputs)

/-- An entry is too old to be taken over. -/
def isStale (learner : Learner) (now : Nat) (entry : LearnedEntry) : Bool :=
  match learner.expiry with
  | some expiry => entry.updated < now - expiry
  | none => false

/-- Adds the entries of a snapshot, those that are not too old; also gives their number. -/
def merge (learner : Learner) (now : Nat) (loaded : List (String × LearnedEntry)) :
    Learner × Nat :=
  let fresh := loaded.filter fun (_, entry) => !learner.isStale now entry
  let entries := fresh.foldl
    (fun entries (key, loaded) =>
      let entry := (Entries.get? entries key).getD {}
      Entries.insert entries key
        { counts := entry.counts.addAll loaded.counts, updated := max entry.updated loaded.updated })
    learner.entries
  ({ learner with entries }, fresh.length)

/-- Forgets all that was seen. -/
def clear (learner : Learner) : Learner :=
  { learner with entries := [] }

end Learner

end Reactor
