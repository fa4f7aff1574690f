namespace ClassLang.Text

def splitLines : List Char → List (List Char)
  | [] => []
  | '\n' :: cs => [] :: splitLines cs
  | '\r' :: '\n' :: cs => [] :: splitLines cs
  | c :: cs =>
    match splitLines cs with
    | [] => [[c]]
    | line :: rest => (c :: line) :: rest

/-- The lines of a text, without what ends them: a line feed, perhaps with a carriage return before
it. The last line need not be ended. -/
def lines (s : String) : List String := (splitLines s.toList).map String.ofList

def unlines (lines : List String) : String := String.join (lines.map (· ++ "\n"))

end ClassLang.Text
