import Condense.Text.Ranges

/-!
The Unicode case mappings of characters outside ASCII, by the offset that a character is moved by, and the two
properties that decide how a final sigma is written.
-/

namespace Condense.Text

/-- The characters that are mapped to those behind them: every second one of each range, from its first one on. -/
def lowerNext : Ranges := [
  256,47,3,5,2,15,2,45,2,5,4,3,2,1,3,1,5,1,6,1,7,5,2,1,4,1,2,1,3,3,2,1,3,1,8,1,2,1,2,17,2,17,3,3,3,
  39,3,17,8,1,5,1,4,9,289,3,3,1,97,23,8,1,2,1,101,33,9,53,2,13,2,95,6353,149,11,95,644,1,2780,1,6,5,
  6,1,2,1,10,99,8,3,4,1,31053,45,19,27,135,13,3,61,10,3,2,9,4,1,4,3,3,19,11,15,4,3,6,1,5,3,28,1]

/-- Offsets and the characters that are moved by them. -/
def lowerShifts : List (Int × Ranges) := [
  (32,[192,23,1,7,690,17,1,9,100,32,64241,26,6501,32,21888,32]), (-121,[376,1]), (210,[385,1]),
  (206,[390,1]), (205,[393,2,8,1]), (79,[398,1]), (202,[399,1]), (203,[400,1]), (207,[404,1]), (211,
  [406,1,5,1]), (209,[407,1]), (213,[413,1]), (214,[415,1]), (218,[422,1,2,1,4,1]), (217,[433,2]),
  (219,[439,1]), (2,[452,1,2,1,2,1,38,1]), (-97,[502,1]), (-56,[503,1]), (-130,[544,1,476,3]),
  (10795,[570,1]), (-163,[573,1]), (10792,[574,1]), (-195,[579,1]), (69,[580,1]), (71,[581,1]),
  (116,[895,1]), (38,[902,1]), (37,[904,3]), (64,[908,1,67827,51]), (63,[910,2]), (8,[975,1,4128,
  6]), (-60,[1012,1]), (-7,[1017,1,7154,1]), (80,[1024,16]), (15,[1216,1]), (48,[1329,38,9897,48]),
  (7264,[4256,38,1,1,5,1]), (38864,[5024,80]), (-3008,[7312,43,2,3]), (-7615,[7838,1]), (-8,[7944,8,
  8,6,10,8,8,8,8,6,26,8,24,8,8,8,8,8,8,2,30,2,14,2]), (-8,[8025,1,1,1,1,1,1,1]), (-74,[8122,2]),
  (-9,[8124,1,15,1,47,1]), (-86,[8136,4]), (-100,[8154,2]), (-112,[8170,2]), (-128,[8184,2]), (-126,
  [8186,2]), (-7517,[8486,1]), (-8383,[8490,1]), (-8262,[8491,1]), (28,[8498,1]), (16,[8544,16]),
  (26,[9398,26]), (-10743,[11362,1]), (-3814,[11363,1]), (-10727,[11364,1]), (-10780,[11373,1]),
  (-10749,[11374,1]), (-10783,[11375,1]), (-10782,[11376,1]), (-10815,[11390,2]), (-35332,[42877,
  1]), (-42280,[42893,1]), (-42308,[42922,1,3,1]), (-42319,[42923,1]), (-42315,[42924,1]), (-42305,
  [42925,1]), (-42258,[42928,1]), (-42282,[42929,1]), (-42261,[42930,1]), (928,[42931,1]), (-48,
  [42948,1]), (-42307,[42949,1]), (-35384,[42950,1]), (40,[66560,40,136,36]), (39,[66928,11,1,15,1,
  7,1,2]), (34,[125184,34])]

/-- Greek vowels with an iota below, eight small ones and eight capitals in a row. The iota becomes a letter. -/
def iotaBelow : List (Nat × List Nat) :=
  [(0x1F80, 0x1F08), (0x1F90, 0x1F28), (0x1FA0, 0x1F68)].flatMap fun row =>
    (List.range 16).map fun k => (row.1 + k, [row.2 + k % 8, 0x399])

/-- Characters whose upper case is not the one letter that they are the lower case of. -/
def upperExceptions : List (Nat × List Nat) := [
  (181,[924]), (223,[83,83]), (305,[73]), (329,[700,78]), (383,[83]), (453,[452]), (454,[452]),
  (456,[455]), (457,[455]), (459,[458]), (460,[458]), (496,[74,780]), (498,[497]), (499,[497]),
  (837,[921]), (912,[921,776,769]), (944,[933,776,769]), (962,[931]), (976,[914]), (977,[920]),
  (981,[934]), (982,[928]), (1008,[922]), (1009,[929]), (1013,[917]), (1415,[1333,1362]),
  (7296,[1042]), (7297,[1044]), (7298,[1054]), (7299,[1057]), (7300,[1058]), (7301,[1058]),
  (7302,[1066]), (7303,[1122]), (7304,[42570]), (7830,[72,817]), (7831,[84,776]), (7832,[87,778]),
  (7833,[89,778]), (7834,[65,702]), (7835,[7776]), (8016,[933,787]), (8018,[933,787,768]),
  (8020,[933,787,769]), (8022,[933,787,834]), (8114,[8122,921]), (8115,[913,921]),
  (8116,[902,921]), (8118,[913,834]), (8119,[913,834,921]), (8124,[913,921]), (8126,[921]),
  (8130,[8138,921]), (8131,[919,921]), (8132,[905,921]), (8134,[919,834]), (8135,[919,834,921]),
  (8140,[919,921]), (8146,[921,776,768]), (8147,[921,776,769]), (8150,[921,834]),
  (8151,[921,776,834]), (8162,[933,776,768]), (8163,[933,776,769]), (8164,[929,787]),
  (8166,[933,834]), (8167,[933,776,834]), (8178,[8186,921]), (8179,[937,921]), (8180,[911,921]),
  (8182,[937,834]), (8183,[937,834,921]), (8188,[937,921]), (64256,[70,70]), (64257,[70,73]),
  (64258,[70,76]), (64259,[70,70,73]), (64260,[70,70,76]), (64261,[83,84]), (64262,[83,84]),
  (64275,[1348,1350]), (64276,[1348,1333]), (64277,[1348,1339]), (64278,[1358,1350]),
  (64279,[1348,1341])] ++ iotaBelow

def casedRanges : Ranges := [
  65,26,6,26,47,1,10,1,4,1,5,23,1,31,1,195,1,4,4,208,1,36,7,2,30,5,96,1,42,4,2,2,2,4,1,1,6,1,1,3,1,
  1,1,20,1,83,1,139,8,166,1,38,9,41,2839,38,1,1,5,1,2,43,1,4,672,86,2,6,2178,9,7,43,2,3,64,192,64,
  278,2,6,2,38,2,6,2,8,1,1,1,1,1,1,1,31,2,53,1,7,1,1,3,3,1,7,3,4,2,6,4,13,5,3,1,7,116,1,13,1,16,13,
  101,1,4,1,2,10,1,1,3,5,6,1,1,1,1,1,1,4,1,6,4,1,2,4,5,5,4,1,17,32,3,2,817,52,1814,229,6,4,3,2,12,
  38,1,1,5,1,30994,46,18,30,132,102,3,4,1,59,5,2,1,1,1,5,24,5,1,3,821,43,1,14,6,80,20288,7,12,5,
  1033,26,6,26,1189,80,96,36,4,36,116,11,1,15,1,7,1,2,1,11,1,15,1,7,1,2,451,1,2,3,1,42,1,9,1221,51,
  13,51,2989,64,21856,64,25984,85,1,71,1,2,2,1,2,2,2,4,1,12,1,1,1,7,1,65,1,4,2,8,1,7,1,28,1,4,1,5,1,
  1,3,7,1,340,2,25,1,25,1,31,1,25,1,31,1,25,1,31,1,25,1,31,1,25,1,8,1844,10,1,20,6,6,261,62,2194,68,
  2028,26,6,26,6,26]

def caseIgnorableRanges : Ranges := [
  39,1,6,1,11,1,35,1,1,1,71,1,4,1,1,1,4,1,2,2,503,192,4,2,4,1,9,2,1,1,251,7,207,1,5,1,49,45,1,1,1,2,
  1,2,1,1,44,1,11,6,10,11,1,1,35,1,10,21,16,1,101,8,1,10,1,4,33,1,1,1,30,27,91,11,58,11,4,1,2,1,24,
  24,43,3,44,1,7,2,6,8,41,58,55,1,1,1,4,8,4,1,3,7,10,2,13,1,15,1,58,1,4,4,8,1,20,2,26,1,2,2,57,1,4,
  2,4,2,2,3,3,1,30,2,3,1,11,2,57,1,4,5,1,2,4,1,20,2,22,6,1,1,58,1,2,1,1,4,8,1,7,2,11,2,30,1,61,1,12,
  1,50,1,3,1,55,1,1,3,5,3,1,4,7,2,11,2,29,1,58,1,2,1,6,1,5,2,20,2,28,2,57,2,4,4,8,1,20,2,29,1,72,1,
  7,3,1,1,90,1,2,7,11,9,98,1,2,9,9,1,1,7,73,2,27,1,1,1,1,1,55,14,1,5,1,2,5,11,1,36,9,1,102,4,1,6,1,
  2,2,2,25,2,4,3,16,4,13,1,2,2,6,1,15,1,94,1,608,3,946,3,29,2,30,2,30,2,64,2,1,7,8,1,2,11,3,1,5,1,
  45,5,51,1,65,2,34,1,118,3,4,2,9,1,6,3,219,2,2,1,58,1,1,7,1,1,1,1,2,8,6,10,2,1,39,1,8,31,49,4,48,1,
  1,5,1,1,5,1,40,9,12,2,32,4,2,2,1,3,56,1,1,2,3,1,1,3,58,8,2,2,64,6,82,3,1,13,1,7,4,1,6,1,3,2,50,63,
  13,1,34,101,445,1,1,3,11,3,13,3,13,3,13,2,12,5,8,2,10,1,2,1,2,5,49,5,1,10,1,1,13,1,16,13,51,33,
  2955,2,113,3,125,1,15,1,96,32,47,1,469,1,36,4,3,5,5,1,93,6,93,3,28438,1,1250,6,270,1,98,4,1,10,1,
  1,28,4,80,2,14,34,78,1,23,3,103,3,3,2,8,1,3,1,4,1,25,2,5,1,151,2,26,18,13,1,38,8,25,11,46,3,48,1,
  2,4,2,2,17,1,21,2,66,6,2,2,2,2,12,1,8,1,35,1,11,1,51,1,1,3,2,2,5,2,1,1,27,1,14,2,5,2,1,1,100,5,9,
  3,121,1,2,1,4,1,20272,1,147,17,573,16,3,1,12,16,34,1,2,1,169,1,7,1,6,1,11,1,35,1,1,1,47,1,45,2,67,
  1,21,3,513,1,226,1,149,5,1029,6,1,42,1,9,582,3,1,2,5,4,40,3,4,1,165,2,573,4,387,2,80,3,70,11,49,4,
  123,1,54,15,41,1,2,2,10,3,49,4,2,2,2,1,4,1,10,1,50,3,36,5,1,8,62,1,12,2,52,9,10,4,2,1,95,3,2,1,1,
  2,6,1,2,1,157,1,3,8,21,2,57,2,3,1,37,7,3,5,195,8,2,3,1,1,23,1,84,6,1,1,4,2,1,2,238,4,6,2,1,2,27,2,
  85,8,2,1,1,2,106,1,1,1,2,6,1,1,101,3,2,4,1,5,259,9,1,2,256,2,1,1,4,1,144,4,2,2,4,1,32,10,40,6,2,4,
  8,1,9,6,2,3,46,13,1,2,406,7,1,6,1,1,82,22,2,7,1,2,1,2,122,6,3,1,1,2,1,7,1,1,72,2,3,1,1,1,347,2,11,
  2,52,5,5,1,1,1,5357,17,6,15,13978,5,59,7,9,4,1035,1,63,17,64,2,1,2,16395,4,1,7,1,2,3230,2,1,4,
  4700,46,2,23,544,3,9,16,2,7,30,4,148,3,1979,55,4,50,8,1,14,1,22,5,1,15,1360,7,1,17,2,7,1,2,1,5,5,
  62,33,1,160,14,368,1,61,4,507,5,992,7,109,8,2735,5,789505,1,30,96,128,240]

end Condense.Text
