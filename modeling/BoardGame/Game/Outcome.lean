import BoardGame.Game.Moves

/-! # The outcome of a game -/

namespace BoardGame

inductive Outcome where
  | unresolved
  | draw
  | win (player : PlayerId)
deriving DecidableEq, Inhabited

namespace Play

/-- The players whose conditions for victory hold; the first of `conditions` is that of `player`. -/
def winnersFrom (player : PlayerId) : List (Option Expr) → Play (List PlayerId)
  | [] => return []
  | none :: conditions => winnersFrom (player + 1) conditions
  | some e :: conditions => do
    let won ← check (((← game).env { player := some player }).holds [] e)
    let others ← winnersFrom (player + 1) conditions
    return if won then player :: others else others

/-- A player who alone meets the conditions has won. If nobody does, the game goes on while there
is a move. Anything else is a draw. -/
def outcome : Play Outcome := do
  match ← winnersFrom 0 (← game).definitions.victories with
  | [winner] => return .win winner
  | [] => return if (← generateMoves).isEmpty then .draw else .unresolved
  | _ => return .draw

def isOver : Play Bool := return (← outcome) ≠ .unresolved

/-- The sum of what `count` gives after each of the moves. -/
def sumAfter (count : Play Nat) : List Move → Play Nat
  | [] => return 0
  | m :: ms => do
    makeMove m
    let n ← count
    undoMove
    return n + (← sumAfter count ms)

def perft : Nat → Play Nat
  | 0 => return 1
  | 1 => return (← generateMoves).length
  | depth + 2 => do sumAfter (perft (depth + 1)) (← generateMoves)

end Play
end BoardGame
