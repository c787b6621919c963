import Condense.Text.Alphabetic

/-!
Word characters in the sense of Unicode regular expressions: letters, marks, decimal digits, connector punctuation and
the two joiners.
-/

namespace Condense.Text

def wordRanges : Ranges := [
  768,69,1,42,275,7,263,31,168,1,7,10,117,2,9,3,3,10,70,11,117,10,33,9,9,1,26,2,19,1,43,3,60,8,42,
  10,12,2,8,6,76,1,16,1,3,4,17,10,76,1,16,1,24,10,14,1,61,1,16,1,24,10,76,1,16,1,24,10,13,3,60,1,16,
  1,7,1,16,10,93,1,24,10,76,1,16,1,24,10,76,1,16,1,24,10,75,2,16,1,24,10,90,1,27,10,87,6,1,1,1,10,
  96,1,13,5,1,1,1,10,62,2,6,10,11,1,1,1,1,1,4,2,68,1,1,2,62,1,112,1,1,2,5,10,70,10,707,3,948,2,30,1,
  127,2,19,11,9,1,2,10,33,3,1,11,287,3,10,10,128,10,134,1,20,8,2,11,6,10,22,15,2,11,104,1,15,1,11,
  10,17,9,54,2,4,10,44,1,11,2,67,1,8,10,6,10,118,3,1,21,4,1,6,1,2,3,198,39,14,11,524,2,49,2,19,1,
  123,33,3070,3,141,1,682,6,105,2,30085,10,69,4,9,2,114,2,276,1,37,1,151,1,11,10,6,18,14,10,33,3,37,
  1,95,1,12,1,15,10,22,10,86,10,101,1,1,1,52,1,245,2,2,10,20998,16,16,16,3,2,24,3,192,10,37,1,701,1,
  226,1,447,10,1422,3,4,1,165,2,585,10,451,3,70,11,49,4,192,1,31,11,14,1,57,2,53,10,57,2,1,10,51,1,
  76,1,8,4,3,10,91,2,178,2,5,10,65,2,16,1,24,7,3,5,205,1,3,1,9,10,4,1,99,2,12,10,229,2,126,1,16,10,
  92,2,8,10,97,1,4,10,255,2,165,10,83,2,4,1,12,10,134,1,82,2,18,1,80,2,421,1,16,10,232,1,1,2,10,10,
  61,1,8,10,407,2,13,10,5350,1,6,15,13834,10,86,10,38,5,59,7,25,10,1162,1,19640,1,4706,46,2,23,542,
  5,3,6,8,8,2,7,30,4,148,3,1417,50,512,55,4,50,8,1,14,1,22,5,1,15,1664,7,9,10,356,1,61,14,498,14,
  982,7,109,3,1,3,5,10,4758,10,787718,240]

def isWord (c : Char) : Bool :=
  if c.toNat < 0x80 then c.isAlphanum || c == '_' else isAlphabetic c || wordRanges.contains c

end Condense.Text
