import Condense.Syntax.Form

/-!
What a run shows: the events in their order and how it ends.
-/

namespace Condense

/-- The nodes that were evaluated, in their order. -/
abbrev Trace := List NodeId

/-- What a program cannot know beforehand. Loops are watched for a number of rounds, so that a run which never
ends is known by all its beginnings. -/
structure World (V : Type) where
  /-- What a node evaluates to behind a trace. -/
  answer : Trace → NodeId → V
  truth : V → Bool
  /-- Whether the value of a switch equals that of a test. -/
  selects : Trace → NodeId → Bool
  rounds : Nat

/-- What an expression evaluates to: an answer of the world or a constant. -/
inductive Value (V : Type) where
  | answer (v : V)
  | known (literal : Literal)

def Literal.truth : Literal → Bool
  | .number x => x != 0.0 && !x.isNaN
  | .string s => !s.isEmpty
  | .boolean b => b
  | .null | .empty => false

/-- How a statement ends. It is cut off where a loop goes on for longer than it is watched. -/
inductive Completion (V : Type) where
  | normal
  | returned (value : Option (Value V))
  | thrown (value : Value V)
  | broken
  | continued
  | cut

/-- What an expression does. -/
abbrev Evaluation (V : Type) := Trace → Value V × Trace

/-- What a statement does. -/
abbrev Effect (V : Type) := Trace → Completion V × Trace

variable {V : Type}

def World.isTrue (w : World V) : Value V → Bool
  | .answer v => w.truth v
  | .known literal => literal.truth

namespace Evaluation

variable (w : World V)

def event (id : NodeId) : Evaluation V :=
  fun trace => (.answer (w.answer trace id), trace ++ [id])

def constant (literal : Literal) : Evaluation V :=
  fun trace => (.known literal, trace)

def negation (operand : Evaluation V) : Evaluation V :=
  fun trace => (.known (.boolean (!w.isTrue (operand trace).1)), (operand trace).2)

def comma (left right : Evaluation V) : Evaluation V :=
  fun trace => right (left trace).2

def conjunction (left right : Evaluation V) : Evaluation V :=
  fun trace => if w.isTrue (left trace).1 then right (left trace).2 else left trace

def choice (condition consequent alternate : Evaluation V) : Evaluation V :=
  fun trace =>
    if w.isTrue (condition trace).1 then consequent (condition trace).2 else alternate (condition trace).2

end Evaluation

namespace Effect

/-- The second follows if the first ends normally. -/
def andThen (first second : Effect V) : Effect V :=
  fun trace => match first trace with
    | (.normal, trace) => second trace
    | other => other

def skip : Effect V :=
  fun trace => (.normal, trace)

def ending (completion : Completion V) : Effect V :=
  fun trace => (completion, trace)

def perform (expression : Evaluation V) : Effect V :=
  fun trace => (.normal, (expression trace).2)

/-- Ends with the value of an expression. -/
def endWith (build : Value V → Completion V) (expression : Evaluation V) : Effect V :=
  fun trace => (build (expression trace).1, (expression trace).2)

def sequence : List (Effect V) → Effect V
  | [] => skip
  | first :: rest => first.andThen (sequence rest)

variable (w : World V)

def branch (condition : Evaluation V) (consequent alternate : Effect V) : Effect V :=
  fun trace =>
    if w.isTrue (condition trace).1 then consequent (condition trace).2 else alternate (condition trace).2

/-- What a round of a loop leads to. -/
def afterRound (next : Effect V) : Effect V → Effect V := fun body trace =>
  match body trace with
  | (.normal, trace) | (.continued, trace) => next trace
  | (.broken, trace) => (.normal, trace)
  | other => other

def repeatUpTo (condition : Evaluation V) (body : Effect V) : Nat → Effect V
  | 0 => ending .cut
  | rounds + 1 => branch w condition (afterRound (repeatUpTo condition body rounds) body) skip

def repeatWhile (condition : Evaluation V) (body : Effect V) : Effect V :=
  repeatUpTo w condition body w.rounds

/-- A jump out of a switch ends there. -/
def catchBreak (body : Effect V) : Effect V :=
  fun trace => match body trace with
    | (.broken, trace) => (.normal, trace)
    | other => other

end Effect

/-- A clause of a switch; the one without a test is the default. -/
@[ext]
structure Clause (V : Type) where
  test : Option (NodeId × Evaluation V)
  body : Effect V

namespace Clause

/-- The clauses from the first one whose test is selected on. All tests before it are evaluated. -/
def select (w : World V) : List (Clause V) → Trace → Option (List (Clause V)) × Trace
  | [], trace => (none, trace)
  | clause :: rest, trace =>
    match clause.test with
    | none => select w rest trace
    | some (id, test) =>
      if w.selects (test trace).2 id then (some (clause :: rest), (test trace).2)
      else select w rest (test trace).2

/-- The clauses from the default on, none if there is no default. -/
def fromDefault (clauses : List (Clause V)) : List (Clause V) :=
  clauses.dropWhile fun clause => clause.test.isSome

def fallThrough (clauses : List (Clause V)) : Effect V :=
  Effect.sequence (clauses.map (·.body))

end Clause

/-- A switch runs from the clause that is selected, or else from the default, to its end. -/
def Effect.switch (w : World V) (discriminant : Evaluation V) (clauses : List (Clause V)) : Effect V :=
  fun trace =>
    let (found, trace) := Clause.select w clauses (discriminant trace).2
    Effect.catchBreak (Clause.fallThrough (found.getD (Clause.fromDefault clauses))) trace

namespace Effect

@[simp] theorem skip_andThen (second : Effect V) : skip.andThen second = second := rfl

@[simp] theorem andThen_skip (first : Effect V) : first.andThen skip = first := by
  funext trace
  unfold andThen
  split
  · rename_i here
    exact here.symm
  · rfl

theorem andThen_assoc (first second third : Effect V) :
    (first.andThen second).andThen third = first.andThen (second.andThen third) := by
  funext trace
  simp only [andThen]
  cases h : first trace with
  | mk completion after => cases completion <;> rfl

@[simp] theorem sequence_nil : sequence ([] : List (Effect V)) = skip := rfl

@[simp] theorem sequence_cons (first : Effect V) (rest : List (Effect V)) :
    sequence (first :: rest) = first.andThen (sequence rest) := rfl

theorem sequence_append (first second : List (Effect V)) :
    sequence (first ++ second) = (sequence first).andThen (sequence second) := by
  induction first with
  | nil => rfl
  | cons effect rest ih => rw [List.cons_append, sequence_cons, sequence_cons, ih, andThen_assoc]

theorem sequence_singleton (effect : Effect V) : sequence [effect] = effect :=
  andThen_skip effect

end Effect

end Condense
