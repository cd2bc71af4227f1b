/-!
# Lines

Text or bytes divided into lines. A line ends at a line feed, or at a carriage return with a line feed
behind it; what stands behind the last line feed is a line if it is not empty.
-/

namespace Ckl.Text

/-- The lines of text or bytes without their ends. -/
def linesOf {α : Type} [BEq α] (lineFeed carriageReturn : α) : List α → List (List α)
  | [] => []
  | c :: rest =>
    if c == lineFeed then [] :: linesOf lineFeed carriageReturn rest
    else if c == carriageReturn && rest.head?.any (· == lineFeed) then
      linesOf lineFeed carriageReturn rest
    else
      match linesOf lineFeed carriageReturn rest with
      | [] => [[c]]
      | line :: lines => (c :: line) :: lines

/-- The lines of a text. -/
def lines (text : String) : List String := (linesOf '\n' '\r' text.toList).map String.ofList

end Ckl.Text
