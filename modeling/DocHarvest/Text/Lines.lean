import DocHarvest.Text.Basic

set_option autoImplicit false

namespace DocHarvest.Text

def linesFrom (current : Text) : Text → List Text
  | [] => [current.reverse]
  | '\r' :: '\n' :: t => current.reverse :: linesFrom [] t
  | c :: t =>
    if c == '\n' || c == '\r' then current.reverse :: linesFrom [] t
    else linesFrom (c :: current) t

def lines (t : Text) : List Text := linesFrom [] t

end DocHarvest.Text
