import TopDown.Derivation
import TopDown.Height
import TopDown.Random.Source
import TopDown.Token

/-!
Random sentences. A derivation tree is grown from a nonterminal: above the depth limit each
nonterminal takes one of its alternatives that have a least height, chosen at random, and from the
limit on the first of least height, so that growth ends if all random choices do. The leaves are the
sentence.
-/
namespace TopDown

inductive SampleError where
  | undefinedNonterminal (name : String)
  | unproductive (name : String)
deriving DecidableEq, Repr

namespace SampleError

def message : SampleError → String
  | undefinedNonterminal name => "No definition for nonterminal `" ++ name ++ "`"
  | unproductive name => "`" ++ name ++ "` cannot derive a finite sentence"

instance : Explained SampleError := ⟨message⟩

end SampleError

/-- A production with its least height. -/
structure Candidate where
  production : Production
  height : Nat
deriving DecidableEq, Repr

structure Sampler where
  grammar : Grammar
  heights : Heights
  chooser : Random.Chooser
  maxDepth : Nat

namespace Sampler

def ofGrammar (g : Grammar) (chooser : Random.Chooser) (maxDepth : Nat) : Sampler :=
  ⟨g, g.heights, chooser, maxDepth⟩

variable (sampler : Sampler)

/-- The alternatives of a nonterminal that derive a word of terminals. -/
def candidates (name : String) : List Candidate :=
  (sampler.grammar.productionsOf name).filterMap fun p =>
    (sampler.heights.ofBody p.body).map fun height => ⟨p, height⟩

/-- The first candidate of least height. -/
def shallowest : List Candidate → Option Candidate
  | [] => none
  | c :: rest =>
    match shallowest rest with
    | none => some c
    | some d => if d.height < c.height then some d else some c

/-- The production that a nonterminal takes at a depth, if it has any to take, and the place on the
random tape after it; nothing if the choice does not end. -/
def choose (name : String) (depth position : Nat) : Option (Option Production × Nat) :=
  match sampler.candidates name with
  | [] => some (none, position)
  | c :: rest =>
    if depth < sampler.maxDepth then do
      let choice ← sampler.chooser.choose (rest.length + 1) position
      let chosen ← (c :: rest)[choice.index]?
      return (some chosen.production, choice.position)
    else some ((shallowest (c :: rest)).map Candidate.production, position)

/-- Grows a tree for each symbol of a body that is not the empty word. -/
def growBody (grow : String → Nat → Option (List Derivation × Nat)) :
    Body → Nat → Option (List Derivation × Nat)
  | [], position => some ([], position)
  | .epsilon :: rest, position => growBody grow rest position
  | .terminal name :: rest, position => do
    let (trees, position) ← growBody grow rest position
    return (.leaf name :: trees, position)
  | .nonterminal name :: rest, position => do
    let (front, position) ← grow name position
    let (trees, position) ← growBody grow rest position
    return (front ++ trees, position)

/-- Grows a tree from a nonterminal, no more than `levels` deep. A nonterminal with nothing to take
grows none; if some choice does not end, neither does the growth. -/
def grow : Nat → Nat → String → Nat → Option (List Derivation × Nat)
  | 0, _, _, _ => none
  | levels + 1, depth, name, position => do
    match ← sampler.choose name depth position with
    | (none, position) => return ([], position)
    | (some p, position) =>
      let (children, position) ← growBody (grow levels (depth + 1)) p.body position
      return ([.node p children], position)

/-- From the depth limit on every level takes one off the height that is still needed. -/
def levels : Nat :=
  sampler.maxDepth + (sampler.heights.entries.map (·.2)).foldl max 0 + 1

/-- Every terminal becomes a token of its own name, side by side on one line. -/
def layOut (sentence : List String) : List Token :=
  (sentence.zipIdx 1).map fun (terminal, column) => ⟨terminal, terminal, 1, column⟩

/-- A random sentence derived from `start`, and the place on the tape after it. -/
def sentence (start : String) (position : Nat) :
    Option (Except (Located SampleError) (List Token × Nat)) :=
  if !sampler.grammar.isNonterminal start then
    some (.error ⟨.undefinedNonterminal start, .nowhere⟩)
  else if !sampler.heights.contains start then some (.error ⟨.unproductive start, .nowhere⟩)
  else
    (sampler.grow sampler.levels 0 start position).map fun (trees, position) =>
      .ok (layOut (Derivation.words trees), position)

/-- So many sentences, drawn one after the other, and the place on the tape after them. -/
def sentences (start : String) :
    Nat → Nat → Option (Except (Located SampleError) (List (List Token) × Nat))
  | 0, position => some (.ok ([], position))
  | amount + 1, position =>
    match sampler.sentence start position with
    | none => none
    | some (.error e) => some (.error e)
    | some (.ok (tokens, position)) =>
      (sentences start amount position).map fun drawn =>
        drawn.map fun (rest, position) => (tokens :: rest, position)

end Sampler

end TopDown
