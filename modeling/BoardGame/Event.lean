import BoardGame.EvalError

/-! # Events

What happens besides the results: what is compiled, what is given up, and on demand every move. -/

namespace BoardGame

inductive Event where
  /-- The rule of a piece became automata with this many states. -/
  | compiled (piece : String) (nfa dfa : Nat)
  | noRule (piece : String)
  /-- The moves of the piece at `(x, y)` were given up. -/
  | aborted (piece : String) (x y : Int) (error : String)
  | undoFailed (error : String)
  | applied (player move : String)
  /-- A move of this many letters was taken back, and it is this player's turn again. -/
  | undone (player : String) (letters : Nat)
deriving DecidableEq

namespace Event

def level : Event → String
  | compiled .. | noRule .. => "debug"
  | aborted .. | undoFailed .. => "warn"
  | applied .. | undone .. => "trace"

def message : Event → String
  | compiled .. => "compiled piece rule"
  | noRule _ => "piece has no rule"
  | aborted _ _ _ error => "move generation aborted: " ++ error
  | undoFailed error => "failed to undo a letter: " ++ error
  | applied _ move => "apply " ++ move
  | undone _ letters => "undo " ++ toString letters ++ " letters"

end Event
end BoardGame
