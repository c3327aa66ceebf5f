/-! # Styles

Text for a terminal, with the codes that switch a style on before it and off after it. -/

namespace BoardGame

/-- `text` in the style with this code. -/
def styled (code text : String) : String := "\x1b[" ++ code ++ "m" ++ text ++ "\x1b[0m"

end BoardGame
