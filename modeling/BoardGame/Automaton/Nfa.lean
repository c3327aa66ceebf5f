import BoardGame.Pattern

/-! # Nondeterministic automata

An automaton keeps its states in an arena. Every edge is kept at both ends. Merging two states makes
a new one and leaves the two as holes in the arena, whose numbers are not used again. -/

namespace BoardGame

/-- A state, by its place in the arena. -/
abbrev StateId := Nat

namespace Nfa

/-- What an edge reads: a step, or nothing. -/
abbrev Label := Option Step

/-- The other end of an edge, and what the edge reads. -/
abbrev Edge := StateId × Label

structure State where
  outgoing : List Edge
  incoming : List Edge
deriving DecidableEq, Inhabited

end Nfa

structure Nfa where
  arena : Array (Option Nfa.State)
  start : StateId
  accept : StateId
deriving DecidableEq, Inhabited

namespace Nfa

def empty : Nfa := ⟨#[], 0, 0⟩

/-- The state `id`, if it is live. -/
def state? (n : Nfa) (id : StateId) : Option State := n.arena[id]?.join

def isLive (n : Nfa) (id : StateId) : Bool := (n.state? id).isSome

def outgoing (n : Nfa) (id : StateId) : List Edge := ((n.state? id).map State.outgoing).getD []

def incoming (n : Nfa) (id : StateId) : List Edge := ((n.state? id).map State.incoming).getD []

def size (n : Nfa) : Nat := n.arena.toList.countP Option.isSome

/-! ## Edges -/

/-- Adds an edge at the end unless it is there. -/
def insertEdge (es : List Edge) (e : Edge) : List Edge := if e ∈ es then es else es ++ [e]

def dedupEdges (es : List Edge) : List Edge := es.foldl insertEdge []

def modify (n : Nfa) (id : StateId) (f : State → State) : Nfa :=
  { n with arena := n.arena.modify id (Option.map f) }

def addState (n : Nfa) : StateId × Nfa :=
  (n.arena.size, { n with arena := n.arena.push (some ⟨[], []⟩) })

/-- Adds an edge at those of its ends that are live. -/
def addEdge (n : Nfa) (source target : StateId) (label : Label) : Nfa :=
  (n.modify source fun s => { s with outgoing := insertEdge s.outgoing (target, label) }).modify
    target fun s => { s with incoming := insertEdge s.incoming (source, label) }

/-! ## Merging -/

/-- `id`, or the new state if `id` is one of the merged ones. -/
def redirect (a b merged id : StateId) : StateId := if id = a ∨ id = b then merged else id

def redirectEdges (a b merged : StateId) (es : List Edge) : List Edge :=
  es.map fun (id, label) => (redirect a b merged id, label)

/-- The state that has the edges of both `s` and `t`. -/
def fuse (a b merged : StateId) (s t : Option State) : State :=
  let both (edges : State → List Edge) : List Edge :=
    dedupEdges <| redirectEdges a b merged <| (s.map edges).getD [] ++ (t.map edges).getD []
  ⟨both State.outgoing, both State.incoming⟩

/-- Redirects the edges of a state next to the merged ones. -/
def redirectState (a b merged : StateId) (s : State) : State :=
  ⟨dedupEdges (redirectEdges a b merged s.outgoing),
    dedupEdges (redirectEdges a b merged s.incoming)⟩

/-- Merges two states into a new one and gives the new one. A state merged with itself stays. -/
def merge (n : Nfa) (a b : StateId) : StateId × Nfa :=
  if a = b then (a, n)
  else
    let merged := n.arena.size
    let fused := fuse a b merged (n.state? a) (n.state? b)
    let holed := (n.arena.setIfInBounds a none).setIfInBounds b none
    let neighbours := ((fused.outgoing ++ fused.incoming).map Prod.fst).filter (· ≠ merged)
    let arena := neighbours.foldl
      (fun arena id => arena.modify id (Option.map (redirectState a b merged))) holed
    (merged, ⟨arena.push (some fused), redirect a b merged n.start, redirect a b merged n.accept⟩)

/-! ## From patterns -/

/-- A part of an automaton that reads the words of a pattern from `first` to `last`. -/
structure Fragment where
  first : StateId
  last : StateId
deriving DecidableEq

/-- A state that no edge leads to and that reads what `first` does: `first` itself, or an entry put
before it. -/
def addEntry (n : Nfa) (first : StateId) : StateId × Nfa :=
  if (n.incoming first).isEmpty then (first, n)
  else
    let (entry, n) := n.addState
    (entry, n.addEdge entry first none)

/-- Adds a fragment for a pattern. A first state that can be reached again is neither made a loop
nor left by a shortcut: its entry is. -/
def addFragment (n : Nfa) : Pattern → Fragment × Nfa
  | .step s =>
    let (first, n) := n.addState
    let (last, n) := n.addState
    (⟨first, last⟩, n.addEdge first last (some s))
  | .concat left right =>
    let (l, n) := n.addFragment left
    let (r, n) := n.addFragment right
    let (_, n) := n.merge l.last r.first
    (⟨l.first, r.last⟩, n)
  | .union left right =>
    let (l, n) := n.addFragment left
    let (r, n) := n.addFragment right
    let (first, n) := n.addState
    let n := (n.addEdge first l.first none).addEdge first r.first none
    let (last, n) := n.merge l.last r.last
    (⟨first, last⟩, n)
  | .star inner =>
    let (i, n) := n.addFragment inner
    let (last, n) := n.addState
    let (entry, n) := (n.addEdge i.last last none).addEntry i.first
    let (first, n) := n.merge entry i.last
    (⟨first, last⟩, n)
  | .plus inner =>
    let (i, n) := n.addFragment inner
    let (last, n) := n.addState
    (⟨i.first, last⟩, (n.addEdge i.last i.first none).addEdge i.last last none)
  | .optional inner =>
    let (i, n) := n.addFragment inner
    let (entry, n) := n.addEntry i.first
    (⟨entry, i.last⟩, n.addEdge entry i.last none)

def ofPattern (p : Pattern) : Nfa :=
  let (f, n) := empty.addFragment p
  { n with start := f.first, accept := f.last }

end Nfa
end BoardGame
