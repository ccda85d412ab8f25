import GraphStore.Quad
import GraphStore.Simulation.Draws

/-!
# Random operations

Values come from a small pool, so that adds meet live quads and removes hit them often.

* `Operation` : one write;
* `OperationConfig` : the rates and the size of the pool;
* `Generator` : the pools, and the dice they are drawn with;
* `Generator.next` : the next operation, given the live quads.
-/

namespace GraphStore

inductive Operation where
  | add (quad : Quad)
  | remove (quad : Quad)
deriving Repr, DecidableEq

def Operation.quad : Operation → Quad
  | .add q | .remove q => q

/-- Rates are probabilities. -/
structure OperationConfig where
  /-- A remove rather than an add. -/
  removeRate : Float := 0.35
  /-- A remove that targets a live quad. -/
  hitRate : Float := 0.7
  /-- A quad without predicate or object. -/
  invalidRate : Float := 0.02
  /-- A quad with a label. -/
  labelRate : Float := 0.25
  /-- Distinct node values, at least one. -/
  poolSize : Nat := 8

structure Generator where
  config : OperationConfig
  dice : Dice

namespace Generator

def ofDraws (config : OperationConfig) (draws : Draws) : Generator := ⟨config, { draws }⟩

def nodes (config : OperationConfig) : List String :=
  (List.range (max config.poolSize 1)).map fun i => "n" ++ toString i

def predicates : List String := ["follows", "likes"]

/-- The labels besides the empty one. -/
def labels : List String := ["g1", "g2"]

/-- Every value an operation can hold. -/
def values (config : OperationConfig) : List String := nodes config ++ predicates ++ labels ++ [""]

def quad (config : OperationConfig) (dice : Dice) : Quad × Dice :=
  let (subject, dice) := dice.pick (nodes config)
  let (predicate, dice) := dice.pick predicates
  let (object, dice) := dice.pick (nodes config)
  let (labelled, dice) := dice.toss config.labelRate
  let (label, dice) := if labelled then dice.pick labels else ("", dice)
  let (invalid, dice) := dice.toss config.invalidRate
  if invalid then
    let (noPredicate, dice) := dice.toss 0.5
    if noPredicate then ({ subject, predicate := "", object, label }, dice)
    else ({ subject, predicate, object := "", label }, dice)
  else ({ subject, predicate, object, label }, dice)

/-- A quad to remove: a live one if the dice say so and there is one. -/
def target (config : OperationConfig) (live : List Quad) (dice : Dice) : Quad × Dice :=
  if live.isEmpty then quad config dice
  else
    let (hit, dice) := dice.toss config.hitRate
    if hit then
      match dice.pick? live with
      | (some q, dice) => (q, dice)
      | (none, dice) => quad config dice
    else quad config dice

def next (generator : Generator) (live : List Quad) : Operation × Generator :=
  let (remove, dice) := generator.dice.toss generator.config.removeRate
  if remove then
    let (q, dice) := target generator.config live dice
    (.remove q, { generator with dice })
  else
    let (q, dice) := quad generator.config dice
    (.add q, { generator with dice })

def several (generator : Generator) (live : List Quad) : Nat → List Operation
  | 0 => []
  | n + 1 =>
    let (op, generator) := generator.next live
    op :: several generator live n

end Generator

end GraphStore
