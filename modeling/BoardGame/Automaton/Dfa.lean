import BoardGame.Automaton.Nfa
import BoardGame.Automaton.StateSet

/-! # Deterministic automata

The subset construction. The states of the nondeterministic automaton are first numbered in the
order of a depth-first walk from the start. A state of the result stands for a set closed under empty
edges; its edges are in the order in which their steps are first met in that set. -/

namespace BoardGame

/-! ## Numbering -/

/-- The reachable part of an automaton, with its states numbered as a depth-first walk meets them. -/
structure Numbered where
  /-- The state with each number. -/
  order : Array StateId
  /-- The edges of the state with each number, to numbers. -/
  edges : Array (List Nfa.Edge)
deriving Inhabited

namespace Nfa

/-- The states that a walk meets when `stack` is still to be visited and `order` has been. The
first edge of a state is followed first. -/
def walkFrom (n : Nfa) : Nat → List StateId → List StateId → List StateId
  | 0, order, _ => order
  | _ + 1, order, [] => order
  | fuel + 1, order, id :: stack =>
    if id ∈ order then n.walkFrom fuel order stack
    else
      let order := order ++ [id]
      let next := ((n.outgoing id).map Prod.fst).filter (· ∉ order)
      n.walkFrom fuel order (next ++ stack)

/-- A bound on the visits of a walk: one for the start and one for each edge. -/
def walkBound (n : Nfa) : Nat :=
  ((List.range n.arena.size).map fun id => (n.outgoing id).length).foldr (· + ·) 0 + 2

/-- The reachable states in the order in which a depth-first walk meets them. -/
def walk (n : Nfa) : List StateId := n.walkFrom n.walkBound [] [n.start]

end Nfa

namespace Numbered

def ofNfa (n : Nfa) : Numbered :=
  let order := n.walk
  { order := order.toArray
    edges := (order.map fun id =>
      (n.outgoing id).map fun (target, label) => (order.idxOf target, label)).toArray }

def size (n : Numbered) : Nat := n.order.size

def outgoing (n : Numbered) (i : Nat) : List Nfa.Edge := n.edges.getD i []

/-- The number of a state, or the number of all states if it is not reachable. -/
def number (n : Numbered) (id : StateId) : Nat := n.order.toList.idxOf id

/-- Adds those of `is` that are not in the set. The second part lists what was added. -/
def addFresh {size : Nat} (set : StateSet size) : List Nat → StateSet size × List Nat
  | [] => (set, [])
  | i :: is =>
    if set.contains i then addFresh set is
    else
      let (set', fresh) := addFresh (set.insert i) is
      (set', i :: fresh)

/-- The numbers of `seeds`, as a set and without repetition. -/
def gather (n : Numbered) (seeds : List Nat) : StateSet n.size × List Nat := addFresh .empty seeds

def silent (n : Numbered) (i : Nat) : List Nat :=
  (n.outgoing i).filterMap fun (target, label) => if label.isNone then some target else none

/-- Closes a set of `members` under empty edges, the last of `stack` being expanded first. -/
def closeFrom (n : Numbered) :
    Nat → StateSet n.size → List Nat → List Nat → StateSet n.size × List Nat
  | 0, set, members, _ => (set, members)
  | _ + 1, set, members, [] => (set, members)
  | fuel + 1, set, members, i :: stack =>
    let (set, fresh) := addFresh set (n.silent i)
    n.closeFrom fuel set (members ++ fresh) (fresh.reverse ++ stack)

/-- The closure of `seeds` under empty edges, as a set and as a list in the order of discovery. -/
def closure (n : Numbered) (seeds : List Nat) : StateSet n.size × List Nat :=
  let (set, members) := n.gather seeds
  n.closeFrom (n.size + 1) set members members.reverse

end Numbered

/-! ## Deterministic automata -/

/-- A state of a deterministic automaton. -/
structure Dfa.State where
  transitions : List (Step × StateId)
  accepting : Bool
deriving DecidableEq, Inhabited

structure Dfa where
  states : Array Dfa.State
  start : StateId
deriving DecidableEq, Inhabited

namespace Dfa

/-- The automaton that accepts nothing. -/
def empty : Dfa := ⟨#[⟨[], false⟩], 0⟩

def size (d : Dfa) : Nat := d.states.size

def isAccepting (d : Dfa) (id : StateId) : Bool := ((d.states[id]?).map State.accepting).getD false

def transitions (d : Dfa) (id : StateId) : List (Step × StateId) :=
  ((d.states[id]?).map State.transitions).getD []

end Dfa

/-! ## The subset construction -/

/-- The states made so far, and which set of numbers below `size` each one stands for. -/
structure Subsets (size : Nat) where
  known : List (StateSet size × StateId)
  states : Array Dfa.State

namespace Subsets

/-- Notes that `step` leads to `target`. Steps stay in the order in which they were first noted. -/
def note (step : Step) (target : Nat) : List (Step × List Nat) → List (Step × List Nat)
  | [] => [(step, [target])]
  | (s, targets) :: rest =>
    if s = step then (s, targets ++ [target]) :: rest else (s, targets) :: note step target rest

/-- Where each step leads from a list of states. -/
def moves (n : Numbered) (members : List Nat) : List (Step × List Nat) :=
  (members.flatMap n.outgoing).foldl
    (fun ms (target, label) => match label with
      | some step => note step target ms
      | none => ms)
    []

/-- Makes the targets of `moves` from left to right. -/
def targets {size : Nat} (make : Subsets size → List Nat → StateId × Subsets size)
    (b : Subsets size) : List (Step × List Nat) → List (Step × StateId) × Subsets size
  | [] => ([], b)
  | (step, seeds) :: rest =>
    let (id, b) := make b seeds
    let (ts, b) := targets make b rest
    ((step, id) :: ts, b)

/-- Makes the state for the closure of `seeds`, unless it is known, and all that it leads to. -/
def make (n : Numbered) (accept : Nat) :
    Nat → Subsets n.size → List Nat → StateId × Subsets n.size
  | 0, b, _ => (0, b)
  | fuel + 1, b, seeds =>
    let (set, members) := n.closure seeds
    match b.known.lookup set with
    | some id => (id, b)
    | none =>
      let id := b.states.size
      let accepting := set.contains accept
      let b : Subsets n.size := ⟨(set, id) :: b.known, b.states.push ⟨[], accepting⟩⟩
      let (ts, b) := targets (make n accept fuel) b (moves n members)
      (id, { b with states := b.states.setIfInBounds id ⟨ts, accepting⟩ })

end Subsets

/-- The deterministic automaton that accepts what `n` does. No more states are nested than there
are sets. -/
def Dfa.ofNfa (n : Nfa) : Dfa :=
  let m := Numbered.ofNfa n
  let (start, b) := Subsets.make m (m.number n.accept) (1 <<< m.size + 1) ⟨[], #[]⟩ [0]
  ⟨b.states, start⟩

def Dfa.ofPattern (p : Pattern) : Dfa := .ofNfa (.ofPattern p)

/-- Writes the states with their transitions, one to a line. -/
def Dfa.render (d : Dfa) : String :=
  let state (s : State) (id : Nat) : String :=
    toString id ++ (if id = d.start then " start" else "") ++
      (if s.accepting then " accept" else "") ++ "\n" ++
      String.join (s.transitions.map fun (step, target) =>
        "  " ++ step.render ++ " -> " ++ toString target ++ "\n")
  String.join (d.states.toList.zipIdx.map fun (s, id) => state s id)

end BoardGame
