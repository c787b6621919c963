import Condense.Text.Ranges

/-!
White space, the characters with the Unicode property of that name, and trimming it.
-/

namespace Condense.Text

def blankRanges : Ranges := [
  9,5,18,1,100,1,26,1,5599,1,2431,11,29,2,5,1,47,1,4000,1]

def isBlank (c : Char) : Bool :=
  blankRanges.contains c

def trimStart (s : List Char) : List Char :=
  s.dropWhile isBlank

def trimEnd (s : List Char) : List Char :=
  (s.reverse.dropWhile isBlank).reverse

def trim (s : String) : String :=
  String.ofList (trimEnd (trimStart s.toList))

/-- Takes a non-blank character into the word at the front. -/
def wordsStep (c : Char) (words : List (List Char) × Bool) : List (List Char) × Bool :=
  if isBlank c then (words.1, false)
  else match words with
    | (word :: rest, true) => ((c :: word) :: rest, true)
    | (rest, _) => ([c] :: rest, true)

def words (s : List Char) : List String :=
  (s.foldr wordsStep ([], false)).1.map String.ofList

end Condense.Text
