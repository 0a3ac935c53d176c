/-
# Code parameters

`parameters_get` looks a number of source symbols up in the table of RFC 6330,
section 5.6, and derives the other parameters from the row it finds.  What the
rest of the code takes for granted about them is the structure `Valid`: every
row of the table passes a check that implies it, and the check is evaluated.
-/

import TvRQ.Lib.PrimeWalk

namespace TvRQ

open Imperative PrimeWalk

/-- A row of the table. -/
structure BaseParamSet where
  Kprime : ℕ
  J : ℕ
  S : ℕ
  H : ℕ
  W : ℕ
  deriving DecidableEq, Repr

@[irreducible]
def baseParamSets : List BaseParamSet := [
  ⟨10, 254, 7, 10, 17⟩, ⟨12, 630, 7, 10, 19⟩, ⟨18, 682, 11, 10, 29⟩, ⟨20, 293, 11, 10, 31⟩,
  ⟨26, 80, 11, 10, 37⟩, ⟨30, 566, 11, 10, 41⟩, ⟨32, 860, 11, 10, 43⟩, ⟨36, 267, 11, 10, 47⟩,
  ⟨42, 822, 11, 10, 53⟩, ⟨46, 506, 13, 10, 59⟩, ⟨48, 589, 13, 10, 61⟩, ⟨49, 87, 13, 10, 61⟩,
  ⟨55, 520, 13, 10, 67⟩, ⟨60, 159, 13, 10, 71⟩, ⟨62, 235, 13, 10, 73⟩, ⟨69, 157, 13, 10, 79⟩,
  ⟨75, 502, 17, 10, 89⟩, ⟨84, 334, 17, 10, 97⟩, ⟨88, 583, 17, 10, 101⟩, ⟨91, 66, 17, 10, 103⟩,
  ⟨95, 352, 17, 10, 107⟩, ⟨97, 365, 17, 10, 109⟩, ⟨101, 562, 17, 10, 113⟩,
  ⟨114, 5, 19, 10, 127⟩, ⟨119, 603, 19, 10, 131⟩, ⟨125, 721, 19, 10, 137⟩,
  ⟨127, 28, 19, 10, 139⟩, ⟨138, 660, 19, 10, 149⟩, ⟨140, 829, 19, 10, 151⟩,
  ⟨149, 900, 23, 10, 163⟩, ⟨153, 930, 23, 10, 167⟩, ⟨160, 814, 23, 10, 173⟩,
  ⟨166, 661, 23, 10, 179⟩, ⟨168, 693, 23, 10, 181⟩, ⟨179, 780, 23, 10, 191⟩,
  ⟨181, 605, 23, 10, 193⟩, ⟨185, 551, 23, 10, 197⟩, ⟨187, 777, 23, 10, 199⟩,
  ⟨200, 491, 23, 10, 211⟩, ⟨213, 396, 23, 10, 223⟩, ⟨217, 764, 29, 10, 233⟩,
  ⟨225, 843, 29, 10, 241⟩, ⟨236, 646, 29, 10, 251⟩, ⟨242, 557, 29, 10, 257⟩,
  ⟨248, 608, 29, 10, 263⟩, ⟨257, 265, 29, 10, 271⟩, ⟨263, 505, 29, 10, 277⟩,
  ⟨269, 722, 29, 10, 283⟩, ⟨280, 263, 29, 10, 293⟩, ⟨295, 999, 29, 10, 307⟩,
  ⟨301, 874, 29, 10, 313⟩, ⟨305, 160, 29, 10, 317⟩, ⟨324, 575, 31, 10, 337⟩,
  ⟨337, 210, 31, 10, 349⟩, ⟨341, 513, 31, 10, 353⟩, ⟨347, 503, 31, 10, 359⟩,
  ⟨355, 558, 31, 10, 367⟩, ⟨362, 932, 31, 10, 373⟩, ⟨368, 404, 31, 10, 379⟩,
  ⟨372, 520, 37, 10, 389⟩, ⟨380, 846, 37, 10, 397⟩, ⟨385, 485, 37, 10, 401⟩,
  ⟨393, 728, 37, 10, 409⟩, ⟨405, 554, 37, 10, 421⟩, ⟨418, 471, 37, 10, 433⟩,
  ⟨428, 641, 37, 10, 443⟩, ⟨434, 732, 37, 10, 449⟩, ⟨447, 193, 37, 10, 461⟩,
  ⟨453, 934, 37, 10, 467⟩, ⟨466, 864, 37, 10, 479⟩, ⟨478, 790, 37, 10, 491⟩,
  ⟨486, 912, 37, 10, 499⟩, ⟨491, 617, 37, 10, 503⟩, ⟨497, 587, 37, 10, 509⟩,
  ⟨511, 800, 37, 10, 523⟩, ⟨526, 923, 41, 10, 541⟩, ⟨532, 998, 41, 10, 547⟩,
  ⟨542, 92, 41, 10, 557⟩, ⟨549, 497, 41, 10, 563⟩, ⟨557, 559, 41, 10, 571⟩,
  ⟨563, 667, 41, 10, 577⟩, ⟨573, 912, 41, 10, 587⟩, ⟨580, 262, 41, 10, 593⟩,
  ⟨588, 152, 41, 10, 601⟩, ⟨594, 526, 41, 10, 607⟩, ⟨600, 268, 41, 10, 613⟩,
  ⟨606, 212, 41, 10, 619⟩, ⟨619, 45, 41, 10, 631⟩, ⟨633, 898, 43, 10, 647⟩,
  ⟨640, 527, 43, 10, 653⟩, ⟨648, 558, 43, 10, 661⟩, ⟨666, 460, 47, 10, 683⟩,
  ⟨675, 5, 47, 10, 691⟩, ⟨685, 895, 47, 10, 701⟩, ⟨693, 996, 47, 10, 709⟩,
  ⟨703, 282, 47, 10, 719⟩, ⟨718, 513, 47, 10, 733⟩, ⟨728, 865, 47, 10, 743⟩,
  ⟨736, 870, 47, 10, 751⟩, ⟨747, 239, 47, 10, 761⟩, ⟨759, 452, 47, 10, 773⟩,
  ⟨778, 862, 53, 10, 797⟩, ⟨792, 852, 53, 10, 811⟩, ⟨802, 643, 53, 10, 821⟩,
  ⟨811, 543, 53, 10, 829⟩, ⟨821, 447, 53, 10, 839⟩, ⟨835, 321, 53, 10, 853⟩,
  ⟨845, 287, 53, 10, 863⟩, ⟨860, 12, 53, 10, 877⟩, ⟨870, 251, 53, 10, 887⟩,
  ⟨891, 30, 53, 10, 907⟩, ⟨903, 621, 53, 10, 919⟩, ⟨913, 555, 53, 10, 929⟩,
  ⟨926, 127, 53, 10, 941⟩, ⟨938, 400, 53, 10, 953⟩, ⟨950, 91, 59, 10, 971⟩,
  ⟨963, 916, 59, 10, 983⟩, ⟨977, 935, 59, 10, 997⟩, ⟨989, 691, 59, 10, 1009⟩,
  ⟨1002, 299, 59, 10, 1021⟩, ⟨1020, 282, 59, 10, 1039⟩, ⟨1032, 824, 59, 10, 1051⟩,
  ⟨1050, 536, 59, 11, 1069⟩, ⟨1074, 596, 59, 11, 1093⟩, ⟨1085, 28, 59, 11, 1103⟩,
  ⟨1099, 947, 59, 11, 1117⟩, ⟨1111, 162, 59, 11, 1129⟩, ⟨1136, 536, 59, 11, 1153⟩,
  ⟨1152, 1000, 61, 11, 1171⟩, ⟨1169, 251, 61, 11, 1187⟩, ⟨1183, 673, 61, 11, 1201⟩,
  ⟨1205, 559, 61, 11, 1223⟩, ⟨1220, 923, 61, 11, 1237⟩, ⟨1236, 81, 67, 11, 1259⟩,
  ⟨1255, 478, 67, 11, 1277⟩, ⟨1269, 198, 67, 11, 1291⟩, ⟨1285, 137, 67, 11, 1307⟩,
  ⟨1306, 75, 67, 11, 1327⟩, ⟨1347, 29, 67, 11, 1367⟩, ⟨1361, 231, 67, 11, 1381⟩,
  ⟨1389, 532, 67, 11, 1409⟩, ⟨1404, 58, 67, 11, 1423⟩, ⟨1420, 60, 67, 11, 1439⟩,
  ⟨1436, 964, 71, 11, 1459⟩, ⟨1461, 624, 71, 11, 1483⟩, ⟨1477, 502, 71, 11, 1499⟩,
  ⟨1502, 636, 71, 11, 1523⟩, ⟨1522, 986, 71, 11, 1543⟩, ⟨1539, 950, 71, 11, 1559⟩,
  ⟨1561, 735, 73, 11, 1583⟩, ⟨1579, 866, 73, 11, 1601⟩, ⟨1600, 203, 73, 11, 1621⟩,
  ⟨1616, 83, 73, 11, 1637⟩, ⟨1649, 14, 73, 11, 1669⟩, ⟨1673, 522, 79, 11, 1699⟩,
  ⟨1698, 226, 79, 11, 1723⟩, ⟨1716, 282, 79, 11, 1741⟩, ⟨1734, 88, 79, 11, 1759⟩,
  ⟨1759, 636, 79, 11, 1783⟩, ⟨1777, 860, 79, 11, 1801⟩, ⟨1800, 324, 79, 11, 1823⟩,
  ⟨1824, 424, 79, 11, 1847⟩, ⟨1844, 999, 79, 11, 1867⟩, ⟨1863, 682, 83, 11, 1889⟩,
  ⟨1887, 814, 83, 11, 1913⟩, ⟨1906, 979, 83, 11, 1931⟩, ⟨1926, 538, 83, 11, 1951⟩,
  ⟨1954, 278, 83, 11, 1979⟩, ⟨1979, 580, 83, 11, 2003⟩, ⟨2005, 773, 83, 11, 2029⟩,
  ⟨2040, 911, 89, 11, 2069⟩, ⟨2070, 506, 89, 11, 2099⟩, ⟨2103, 628, 89, 11, 2131⟩,
  ⟨2125, 282, 89, 11, 2153⟩, ⟨2152, 309, 89, 11, 2179⟩, ⟨2195, 858, 89, 11, 2221⟩,
  ⟨2217, 442, 89, 11, 2243⟩, ⟨2247, 654, 89, 11, 2273⟩, ⟨2278, 82, 97, 11, 2311⟩,
  ⟨2315, 428, 97, 11, 2347⟩, ⟨2339, 442, 97, 11, 2371⟩, ⟨2367, 283, 97, 11, 2399⟩,
  ⟨2392, 538, 97, 11, 2423⟩, ⟨2416, 189, 97, 11, 2447⟩, ⟨2447, 438, 97, 11, 2477⟩,
  ⟨2473, 912, 97, 11, 2503⟩, ⟨2502, 1, 97, 11, 2531⟩, ⟨2528, 167, 97, 11, 2557⟩,
  ⟨2565, 272, 97, 11, 2593⟩, ⟨2601, 209, 101, 11, 2633⟩, ⟨2640, 927, 101, 11, 2671⟩,
  ⟨2668, 386, 101, 11, 2699⟩, ⟨2701, 653, 101, 11, 2731⟩, ⟨2737, 669, 101, 11, 2767⟩,
  ⟨2772, 431, 101, 11, 2801⟩, ⟨2802, 793, 103, 11, 2833⟩, ⟨2831, 588, 103, 11, 2861⟩,
  ⟨2875, 777, 107, 11, 2909⟩, ⟨2906, 939, 107, 11, 2939⟩, ⟨2938, 864, 107, 11, 2971⟩,
  ⟨2979, 627, 107, 11, 3011⟩, ⟨3015, 265, 109, 11, 3049⟩, ⟨3056, 976, 109, 11, 3089⟩,
  ⟨3101, 988, 113, 11, 3137⟩, ⟨3151, 507, 113, 11, 3187⟩, ⟨3186, 640, 113, 11, 3221⟩,
  ⟨3224, 15, 113, 11, 3259⟩, ⟨3265, 667, 113, 11, 3299⟩, ⟨3299, 24, 127, 11, 3347⟩,
  ⟨3344, 877, 127, 11, 3391⟩, ⟨3387, 240, 127, 11, 3433⟩, ⟨3423, 720, 127, 11, 3469⟩,
  ⟨3466, 93, 127, 11, 3511⟩, ⟨3502, 919, 127, 11, 3547⟩, ⟨3539, 635, 127, 11, 3583⟩,
  ⟨3579, 174, 127, 11, 3623⟩, ⟨3616, 647, 127, 11, 3659⟩, ⟨3658, 820, 127, 11, 3701⟩,
  ⟨3697, 56, 127, 11, 3739⟩, ⟨3751, 485, 127, 11, 3793⟩, ⟨3792, 210, 127, 11, 3833⟩,
  ⟨3840, 124, 127, 11, 3881⟩, ⟨3883, 546, 127, 11, 3923⟩, ⟨3924, 954, 131, 11, 3967⟩,
  ⟨3970, 262, 131, 11, 4013⟩, ⟨4015, 927, 131, 11, 4057⟩, ⟨4069, 957, 131, 11, 4111⟩,
  ⟨4112, 726, 137, 11, 4159⟩, ⟨4165, 583, 137, 11, 4211⟩, ⟨4207, 782, 137, 11, 4253⟩,
  ⟨4252, 37, 137, 11, 4297⟩, ⟨4318, 758, 137, 11, 4363⟩, ⟨4365, 777, 137, 11, 4409⟩,
  ⟨4418, 104, 139, 11, 4463⟩, ⟨4468, 476, 139, 11, 4513⟩, ⟨4513, 113, 149, 11, 4567⟩,
  ⟨4567, 313, 149, 11, 4621⟩, ⟨4626, 102, 149, 11, 4679⟩, ⟨4681, 501, 149, 11, 4733⟩,
  ⟨4731, 332, 149, 11, 4783⟩, ⟨4780, 786, 149, 11, 4831⟩, ⟨4838, 99, 149, 11, 4889⟩,
  ⟨4901, 658, 149, 11, 4951⟩, ⟨4954, 794, 149, 11, 5003⟩, ⟨5008, 37, 151, 11, 5059⟩,
  ⟨5063, 471, 151, 11, 5113⟩, ⟨5116, 94, 157, 11, 5171⟩, ⟨5172, 873, 157, 11, 5227⟩,
  ⟨5225, 918, 157, 11, 5279⟩, ⟨5279, 945, 157, 11, 5333⟩, ⟨5334, 211, 157, 11, 5387⟩,
  ⟨5391, 341, 157, 11, 5443⟩, ⟨5449, 11, 163, 11, 5507⟩, ⟨5506, 578, 163, 11, 5563⟩,
  ⟨5566, 494, 163, 11, 5623⟩, ⟨5637, 694, 163, 11, 5693⟩, ⟨5694, 252, 163, 11, 5749⟩,
  ⟨5763, 451, 167, 11, 5821⟩, ⟨5823, 83, 167, 11, 5881⟩, ⟨5896, 689, 167, 11, 5953⟩,
  ⟨5975, 488, 173, 11, 6037⟩, ⟨6039, 214, 173, 11, 6101⟩, ⟨6102, 17, 173, 11, 6163⟩,
  ⟨6169, 469, 173, 11, 6229⟩, ⟨6233, 263, 179, 11, 6299⟩, ⟨6296, 309, 179, 11, 6361⟩,
  ⟨6363, 984, 179, 11, 6427⟩, ⟨6427, 123, 179, 11, 6491⟩, ⟨6518, 360, 179, 11, 6581⟩,
  ⟨6589, 863, 181, 11, 6653⟩, ⟨6655, 122, 181, 11, 6719⟩, ⟨6730, 522, 191, 11, 6803⟩,
  ⟨6799, 539, 191, 11, 6871⟩, ⟨6878, 181, 191, 11, 6949⟩, ⟨6956, 64, 191, 11, 7027⟩,
  ⟨7033, 387, 191, 11, 7103⟩, ⟨7108, 967, 191, 11, 7177⟩, ⟨7185, 843, 191, 11, 7253⟩,
  ⟨7281, 999, 193, 11, 7351⟩, ⟨7360, 76, 197, 11, 7433⟩, ⟨7445, 142, 197, 11, 7517⟩,
  ⟨7520, 599, 197, 11, 7591⟩, ⟨7596, 576, 199, 11, 7669⟩, ⟨7675, 176, 211, 11, 7759⟩,
  ⟨7770, 392, 211, 11, 7853⟩, ⟨7855, 332, 211, 11, 7937⟩, ⟨7935, 291, 211, 11, 8017⟩,
  ⟨8030, 913, 211, 11, 8111⟩, ⟨8111, 608, 211, 11, 8191⟩, ⟨8194, 212, 211, 11, 8273⟩,
  ⟨8290, 696, 211, 11, 8369⟩, ⟨8377, 931, 223, 11, 8467⟩, ⟨8474, 326, 223, 11, 8563⟩,
  ⟨8559, 228, 223, 11, 8647⟩, ⟨8654, 706, 223, 11, 8741⟩, ⟨8744, 144, 223, 11, 8831⟩,
  ⟨8837, 83, 223, 11, 8923⟩, ⟨8928, 743, 223, 11, 9013⟩, ⟨9019, 187, 223, 11, 9103⟩,
  ⟨9111, 654, 227, 11, 9199⟩, ⟨9206, 359, 227, 11, 9293⟩, ⟨9303, 493, 229, 11, 9391⟩,
  ⟨9400, 369, 233, 11, 9491⟩, ⟨9497, 981, 233, 11, 9587⟩, ⟨9601, 276, 239, 11, 9697⟩,
  ⟨9708, 647, 239, 11, 9803⟩, ⟨9813, 389, 239, 11, 9907⟩, ⟨9916, 80, 239, 11, 10009⟩,
  ⟨10017, 396, 241, 11, 10111⟩, ⟨10120, 580, 251, 11, 10223⟩, ⟨10241, 873, 251, 11, 10343⟩,
  ⟨10351, 15, 251, 11, 10453⟩, ⟨10458, 976, 251, 11, 10559⟩, ⟨10567, 584, 251, 11, 10667⟩,
  ⟨10676, 267, 257, 11, 10781⟩, ⟨10787, 876, 257, 11, 10891⟩, ⟨10899, 642, 257, 12, 11003⟩,
  ⟨11015, 794, 257, 12, 11119⟩, ⟨11130, 78, 263, 12, 11239⟩, ⟨11245, 736, 263, 12, 11353⟩,
  ⟨11358, 882, 269, 12, 11471⟩, ⟨11475, 251, 269, 12, 11587⟩, ⟨11590, 434, 269, 12, 11701⟩,
  ⟨11711, 204, 269, 12, 11821⟩, ⟨11829, 256, 271, 12, 11941⟩, ⟨11956, 106, 277, 12, 12073⟩,
  ⟨12087, 375, 277, 12, 12203⟩, ⟨12208, 148, 277, 12, 12323⟩, ⟨12333, 496, 281, 12, 12451⟩,
  ⟨12460, 88, 281, 12, 12577⟩, ⟨12593, 826, 293, 12, 12721⟩, ⟨12726, 71, 293, 12, 12853⟩,
  ⟨12857, 925, 293, 12, 12983⟩, ⟨13002, 760, 293, 12, 13127⟩, ⟨13143, 130, 293, 12, 13267⟩,
  ⟨13284, 641, 307, 12, 13421⟩, ⟨13417, 400, 307, 12, 13553⟩, ⟨13558, 480, 307, 12, 13693⟩,
  ⟨13695, 76, 307, 12, 13829⟩, ⟨13833, 665, 307, 12, 13967⟩, ⟨13974, 910, 307, 12, 14107⟩,
  ⟨14115, 467, 311, 12, 14251⟩, ⟨14272, 964, 311, 12, 14407⟩, ⟨14415, 625, 313, 12, 14551⟩,
  ⟨14560, 362, 317, 12, 14699⟩, ⟨14713, 759, 317, 12, 14851⟩, ⟨14862, 728, 331, 12, 15013⟩,
  ⟨15011, 343, 331, 12, 15161⟩, ⟨15170, 113, 331, 12, 15319⟩, ⟨15325, 137, 331, 12, 15473⟩,
  ⟨15496, 308, 331, 12, 15643⟩, ⟨15651, 800, 337, 12, 15803⟩, ⟨15808, 177, 337, 12, 15959⟩,
  ⟨15977, 961, 337, 12, 16127⟩, ⟨16161, 958, 347, 12, 16319⟩, ⟨16336, 72, 347, 12, 16493⟩,
  ⟨16505, 732, 347, 12, 16661⟩, ⟨16674, 145, 349, 12, 16831⟩, ⟨16851, 577, 353, 12, 17011⟩,
  ⟨17024, 305, 353, 12, 17183⟩, ⟨17195, 50, 359, 12, 17359⟩, ⟨17376, 351, 359, 12, 17539⟩,
  ⟨17559, 175, 367, 12, 17729⟩, ⟨17742, 727, 367, 12, 17911⟩, ⟨17929, 902, 367, 12, 18097⟩,
  ⟨18116, 409, 373, 12, 18289⟩, ⟨18309, 776, 373, 12, 18481⟩, ⟨18503, 586, 379, 12, 18679⟩,
  ⟨18694, 451, 379, 12, 18869⟩, ⟨18909, 287, 383, 12, 19087⟩, ⟨19126, 246, 389, 12, 19309⟩,
  ⟨19325, 222, 389, 12, 19507⟩, ⟨19539, 563, 397, 12, 19727⟩, ⟨19740, 839, 397, 12, 19927⟩,
  ⟨19939, 897, 401, 12, 20129⟩, ⟨20152, 409, 401, 12, 20341⟩, ⟨20355, 618, 409, 12, 20551⟩,
  ⟨20564, 439, 409, 12, 20759⟩, ⟨20778, 95, 419, 13, 20983⟩, ⟨20988, 448, 419, 13, 21191⟩,
  ⟨21199, 133, 419, 13, 21401⟩, ⟨21412, 938, 419, 13, 21613⟩, ⟨21629, 423, 431, 13, 21841⟩,
  ⟨21852, 90, 431, 13, 22063⟩, ⟨22073, 640, 431, 13, 22283⟩, ⟨22301, 922, 433, 13, 22511⟩,
  ⟨22536, 250, 439, 13, 22751⟩, ⟨22779, 367, 439, 13, 22993⟩, ⟨23010, 447, 443, 13, 23227⟩,
  ⟨23252, 559, 449, 13, 23473⟩, ⟨23491, 121, 457, 13, 23719⟩, ⟨23730, 623, 457, 13, 23957⟩,
  ⟨23971, 450, 457, 13, 24197⟩, ⟨24215, 253, 461, 13, 24443⟩, ⟨24476, 106, 467, 13, 24709⟩,
  ⟨24721, 863, 467, 13, 24953⟩, ⟨24976, 148, 479, 13, 25219⟩, ⟨25230, 427, 479, 13, 25471⟩,
  ⟨25493, 138, 479, 13, 25733⟩, ⟨25756, 794, 487, 13, 26003⟩, ⟨26022, 247, 487, 13, 26267⟩,
  ⟨26291, 562, 491, 13, 26539⟩, ⟨26566, 53, 499, 13, 26821⟩, ⟨26838, 135, 499, 13, 27091⟩,
  ⟨27111, 21, 503, 13, 27367⟩, ⟨27392, 201, 509, 13, 27653⟩, ⟨27682, 169, 521, 13, 27953⟩,
  ⟨27959, 70, 521, 13, 28229⟩, ⟨28248, 386, 521, 13, 28517⟩, ⟨28548, 226, 523, 13, 28817⟩,
  ⟨28845, 3, 541, 13, 29131⟩, ⟨29138, 769, 541, 13, 29423⟩, ⟨29434, 590, 541, 13, 29717⟩,
  ⟨29731, 672, 541, 13, 30013⟩, ⟨30037, 713, 547, 13, 30323⟩, ⟨30346, 967, 547, 13, 30631⟩,
  ⟨30654, 368, 557, 14, 30949⟩, ⟨30974, 348, 557, 14, 31267⟩, ⟨31285, 119, 563, 14, 31583⟩,
  ⟨31605, 503, 569, 14, 31907⟩, ⟨31948, 181, 571, 14, 32251⟩, ⟨32272, 394, 577, 14, 32579⟩,
  ⟨32601, 189, 587, 14, 32917⟩, ⟨32932, 210, 587, 14, 33247⟩, ⟨33282, 62, 593, 14, 33601⟩,
  ⟨33623, 273, 593, 14, 33941⟩, ⟨33961, 554, 599, 14, 34283⟩, ⟨34302, 936, 607, 14, 34631⟩,
  ⟨34654, 483, 607, 14, 34981⟩, ⟨35031, 397, 613, 14, 35363⟩, ⟨35395, 241, 619, 14, 35731⟩,
  ⟨35750, 500, 631, 14, 36097⟩, ⟨36112, 12, 631, 14, 36457⟩, ⟨36479, 958, 641, 14, 36833⟩,
  ⟨36849, 524, 641, 14, 37201⟩, ⟨37227, 8, 643, 14, 37579⟩, ⟨37606, 100, 653, 14, 37967⟩,
  ⟨37992, 339, 653, 14, 38351⟩, ⟨38385, 804, 659, 14, 38749⟩, ⟨38787, 510, 673, 14, 39163⟩,
  ⟨39176, 18, 673, 14, 39551⟩, ⟨39576, 412, 677, 14, 39953⟩, ⟨39980, 394, 683, 14, 40361⟩,
  ⟨40398, 830, 691, 15, 40787⟩, ⟨40816, 535, 701, 15, 41213⟩, ⟨41226, 199, 701, 15, 41621⟩,
  ⟨41641, 27, 709, 15, 42043⟩, ⟨42067, 298, 709, 15, 42467⟩, ⟨42490, 368, 719, 15, 42899⟩,
  ⟨42916, 755, 727, 15, 43331⟩, ⟨43388, 379, 727, 15, 43801⟩, ⟨43840, 73, 733, 15, 44257⟩,
  ⟨44279, 387, 739, 15, 44701⟩, ⟨44729, 457, 751, 15, 45161⟩, ⟨45183, 761, 751, 15, 45613⟩,
  ⟨45638, 855, 757, 15, 46073⟩, ⟨46104, 370, 769, 15, 46549⟩, ⟨46574, 261, 769, 15, 47017⟩,
  ⟨47047, 299, 787, 15, 47507⟩, ⟨47523, 920, 787, 15, 47981⟩, ⟨48007, 269, 787, 15, 48463⟩,
  ⟨48489, 862, 797, 15, 48953⟩, ⟨48976, 349, 809, 15, 49451⟩, ⟨49470, 103, 809, 15, 49943⟩,
  ⟨49978, 115, 821, 15, 50461⟩, ⟨50511, 93, 821, 16, 50993⟩, ⟨51017, 982, 827, 16, 51503⟩,
  ⟨51530, 432, 839, 16, 52027⟩, ⟨52062, 340, 853, 16, 52571⟩, ⟨52586, 173, 853, 16, 53093⟩,
  ⟨53114, 421, 857, 16, 53623⟩, ⟨53650, 330, 863, 16, 54163⟩, ⟨54188, 624, 877, 16, 54713⟩,
  ⟨54735, 233, 877, 16, 55259⟩, ⟨55289, 362, 883, 16, 55817⟩, ⟨55843, 963, 907, 16, 56393⟩,
  ⟨56403, 471, 907, 16, 56951⟩]

/-- The parameters of a code.  Only `K` is ever negative: -1 marks an unsupported
number of symbols. -/
@[ext]
structure Parameters where
  K : ℤ
  Kprime : ℕ
  J : ℕ
  L : ℕ
  S : ℕ
  H : ℕ
  B : ℕ
  W : ℕ
  P : ℕ
  P1 : ℕ
  U : ℕ
  deriving DecidableEq, Repr

@[irreducible]
def smallPrimes : List ℕ := [
  2, 3, 5, 7, 11, 13, 17, 19, 23, 29, 31, 37, 41, 43, 47, 53, 59, 61, 67, 71, 73, 79, 83, 89,
  97, 101, 103, 107, 109, 113, 127, 131, 137, 139, 149, 151, 157, 163, 167, 173, 179, 181, 191,
  193, 197, 199, 211, 223, 227, 229, 233, 239, 241, 251, 257, 263, 269, 271, 277, 281, 283,
  293, 307, 311, 313, 317, 331, 337, 347, 349, 353, 359, 367, 373, 379, 383, 389, 397, 401,
  409, 419, 421, 431, 433, 439, 443, 449, 457, 461, 463, 467, 479, 487, 491, 499, 503, 509,
  521, 523, 541, 547, 557, 563, 569, 571, 577, 587, 593, 599, 601, 607, 613, 617, 619, 631,
  641, 643, 647, 653, 659, 661, 673, 677, 683, 691, 701, 709, 719, 727, 733, 739, 743, 751,
  757, 761, 769, 773, 787, 797, 809, 811, 821, 823, 827, 829, 839, 853, 857, 859, 863, 877,
  881, 883, 887, 907, 911, 919, 929, 937, 941, 947, 953, 967, 971, 977, 983, 991, 997, 1009,
  1013, 1019, 1021, 1031, 1033, 1039, 1049, 1051, 1061, 1063, 1069, 1087, 1091, 1093, 1097,
  1103, 1109, 1117, 1123, 1129, 1151, 1153, 1163, 1171, 1181, 1187, 1193, 1201, 1213, 1217,
  1223, 1229, 1231, 1237, 1249, 1259, 1277, 1279, 1283, 1289, 1291, 1297, 1301, 1303, 1307,
  1319, 1321, 1327, 1361, 1367, 1373, 1381, 1399, 1409, 1423, 1427, 1429, 1433, 1439, 1447,
  1451, 1453, 1459, 1471, 1481, 1483, 1487, 1489, 1493, 1499, 1511, 1523, 1531, 1543, 1549,
  1553, 1559, 1567, 1571, 1579, 1583, 1597, 1601, 1607, 1609, 1613, 1619, 1621, 1627, 1637,
  1657, 1663, 1667, 1669, 1693, 1697, 1699, 1709, 1721, 1723, 1733, 1741, 1747, 1753, 1759,
  1777, 1783, 1787, 1789, 1801, 1811, 1823, 1831, 1847, 1861, 1867, 1871, 1873, 1877, 1879,
  1889, 1901, 1907, 1913, 1931, 1933, 1949, 1951, 1973, 1979, 1987, 1993, 1997, 1999]

/-- The first prime of a table that is at least `val`; there has to be one. -/
def nextprime (val : ℕ) : Except Fault ℕ :=
  match smallPrimes.find? fun p => val ≤ p with
  | some p => .ok p
  | none => .error .assertion

/-- The parameters that mark an unsupported number of symbols. -/
def Parameters.unsupported : Parameters := ⟨-1, 0, 0, 0, 0, 0, 0, 0, 0, 0, 0⟩

/-- Compute all code parameters for `K` symbols. -/
def parametersGet (K : ℤ) : Except Fault Parameters :=
  if K ≤ 0 then
    .ok .unsupported
  else
    match baseParamSets.find? fun row => K ≤ row.Kprime with
    | none => .ok .unsupported
    | some row => do
        let L := row.Kprime + row.S + row.H
        let P := L - row.W
        let P1 ← nextprime P
        pure { K := K, Kprime := row.Kprime, J := row.J, L := L, S := row.S, H := row.H
               B := row.W - row.S, W := row.W, P := P, P1 := P1, U := P - row.H }

/-! ## What the table guarantees -/

/-- What the code relies on in the parameters of a supported number of symbols. -/
structure Parameters.Valid (P : Parameters) : Prop where
  one_le_K : 1 ≤ P.K
  K_le : P.K ≤ P.Kprime
  Kprime_le : P.Kprime ≤ 56403
  L_eq : P.L = P.Kprime + P.S + P.H
  W_add_P : P.W + P.P = P.L
  B_add_S : P.B + P.S = P.W
  U_add_H : P.U + P.H = P.P
  S_pos : 7 ≤ P.S
  S_le : P.S ≤ 907
  H_ge : 10 ≤ P.H
  H_le : P.H ≤ 16
  J_lt : P.J < 1024
  W_ge : 17 ≤ P.W
  W_le : P.W ≤ 56951
  W_prime : P.W.Prime
  P_ge : 10 ≤ P.P
  P_le_P1 : P.P ≤ P.P1
  P1_le : P.P1 ≤ 379
  P1_prime : P.P1.Prime

/-- The numbers among the parameters are small. -/
theorem Parameters.Valid.fields_le {P : Parameters} (hP : P.Valid) :
    (P.Kprime ≤ 60000 ∧ P.J ≤ 60000 ∧ P.L ≤ 60000 ∧ P.S ≤ 60000 ∧ P.H ≤ 60000) ∧
      P.B ≤ 60000 ∧ P.W ≤ 60000 ∧ P.P ≤ 60000 ∧ P.P1 ≤ 60000 ∧ P.U ≤ 60000 := by
  have hL := hP.L_eq
  have hWP := hP.W_add_P
  have hBS := hP.B_add_S
  have hUH := hP.U_add_H
  have hKprime := hP.Kprime_le
  have hS := hP.S_le
  have hH := hP.H_le
  have hJ := hP.J_lt
  have hP1 := hP.P1_le
  omega

/-- The check of one row. -/
def BaseParamSet.check (row : BaseParamSet) : Bool :=
  row.W ≤ row.Kprime + row.S + row.H && row.S ≤ row.W &&
    row.H + row.W ≤ row.Kprime + row.S + row.H && 10 + row.W ≤ row.Kprime + row.S + row.H &&
    7 ≤ row.S && row.S ≤ 907 && 10 ≤ row.H && row.H ≤ 16 && row.J < 1024 && 17 ≤ row.W &&
    row.W ≤ 56951 && row.Kprime ≤ 56403 && row.Kprime + row.S + row.H ≤ row.W + 379 &&
    trial row.W

theorem baseParamSets_check : ∀ row ∈ baseParamSets, row.check = true := by decide +kernel

theorem smallPrimes_check : ∀ p ∈ smallPrimes, trial p = true ∧ p < 2000 := by decide +kernel

theorem mem_smallPrimes_379 : 379 ∈ smallPrimes := by decide +kernel

theorem smallPrimes_chain : smallPrimes.IsChain (· ≤ ·) := by decide +kernel

/-- No number of rows that the code adds shrinks from one row to the other. -/
def BaseParamSet.Le (row row' : BaseParamSet) : Prop :=
  row.Kprime ≤ row'.Kprime ∧ row.S ≤ row'.S ∧ row.H ≤ row'.H

instance (row row' : BaseParamSet) : Decidable (row.Le row') :=
  inferInstanceAs (Decidable (_ ∧ _))

instance : Std.Refl BaseParamSet.Le := ⟨fun _ => ⟨le_rfl, le_rfl, le_rfl⟩⟩

instance : IsTrans BaseParamSet BaseParamSet.Le :=
  ⟨fun _ _ _ h h' => ⟨h.1.trans h'.1, h.2.1.trans h'.2.1, h.2.2.trans h'.2.2⟩⟩

theorem baseParamSets_chain : baseParamSets.IsChain BaseParamSet.Le := by decide +kernel

/-- In a list that grows, the first member with a property is below every other one. -/
theorem find?_rel {α : Type} {R : α → α → Prop} [Std.Refl R] [IsTrans α R] {l : List α}
    {p : α → Bool} {a b : α} (hl : l.IsChain R) (ha : l.find? p = some a) (hb : b ∈ l)
    (hpb : p b = true) : R a b := by
  have hpair : l.Pairwise R := List.isChain_iff_pairwise.mp hl
  clear hl
  induction l with
  | nil => cases hb
  | cons x l ih =>
      rw [List.pairwise_cons] at hpair
      cases hx : p x with
      | true =>
          rw [List.find?_cons_of_pos hx] at ha
          cases ha
          rcases List.mem_cons.mp hb with rfl | hb
          · exact refl_of R _
          · exact hpair.1 b hb
      | false =>
          rw [List.find?_cons_of_neg (by simp [hx])] at ha
          rcases List.mem_cons.mp hb with rfl | hb
          · rw [hx] at hpb
            cases hpb
          · exact ih ha hb hpair.2

/-- The search for a prime succeeds for what it is called with. -/
theorem nextprime_spec {val : ℕ} (h : val ≤ 379) :
    ∃ p, nextprime val = .ok p ∧ val ≤ p ∧ p ≤ 379 ∧ p.Prime := by
  have hsome : (smallPrimes.find? fun p => val ≤ p).isSome := by
    rw [List.find?_isSome]
    exact ⟨379, mem_smallPrimes_379, by simpa using h⟩
  obtain ⟨p, hp⟩ := Option.isSome_iff_exists.mp hsome
  have hmem := List.mem_of_find?_eq_some hp
  have hge : val ≤ p := by simpa using List.find?_some hp
  obtain ⟨htrial, hlt⟩ := smallPrimes_check p hmem
  have hsorted := find?_rel smallPrimes_chain hp mem_smallPrimes_379 (by simpa using h)
  exact ⟨p, by simp [nextprime, hp], hge, hsorted, prime_of_trial (by omega) htrial⟩

/-- What a supported number of symbols is mapped to. -/
theorem parametersGet_row {K : ℤ} {P : Parameters} (h : parametersGet K = .ok P)
    (hK : P.K ≠ -1) :
    0 < K ∧ P.K = K ∧ ∃ row, baseParamSets.find? (fun row => K ≤ row.Kprime) = some row ∧
      P.Kprime = row.Kprime ∧ P.J = row.J ∧ P.S = row.S ∧ P.H = row.H ∧ P.W = row.W ∧
      P.L = row.Kprime + row.S + row.H ∧ P.P = P.L - row.W ∧ nextprime P.P = .ok P.P1 ∧
      P.U = P.P - row.H ∧ P.B = row.W - row.S := by
  unfold parametersGet at h
  split_ifs at h with hpos
  · cases h
    exact absurd rfl hK
  · split at h
    · cases h
      exact absurd rfl hK
    · rename_i row hrow
      cases hp : nextprime (row.Kprime + row.S + row.H - row.W) with
      | error e =>
          simp only [hp] at h
          cases h
      | ok p =>
          simp only [hp] at h
          cases h
          exact ⟨by omega, rfl, row, hrow, rfl, rfl, rfl, rfl, rfl, rfl, rfl, hp, rfl, rfl⟩

/-- The lookup never fails; the number of symbols may be unsupported. -/
theorem exists_parametersGet (K : ℤ) : ∃ P, parametersGet K = .ok P := by
  unfold parametersGet
  split_ifs
  · exact ⟨_, rfl⟩
  · split
    · exact ⟨_, rfl⟩
    · rename_i row hrow
      have hcheck := baseParamSets_check row (List.mem_of_find?_eq_some hrow)
      simp only [BaseParamSet.check, Bool.and_eq_true, decide_eq_true_eq] at hcheck
      obtain ⟨p, hp, -⟩ := nextprime_spec
        (show row.Kprime + row.S + row.H - row.W ≤ 379 by omega)
      exact ⟨_, by simp only [hp]; rfl⟩

theorem parametersGet_valid {K : ℤ} {P : Parameters} (h : parametersGet K = .ok P)
    (hK : P.K ≠ -1) : P.Valid := by
  obtain ⟨hpos, hPK, row, hrow, hKp, hJ, hS, hH, hW, hL, hP, hP1, hU, hB⟩ :=
    parametersGet_row h hK
  have hle : K ≤ row.Kprime := by simpa using List.find?_some hrow
  have hcheck := baseParamSets_check row (List.mem_of_find?_eq_some hrow)
  simp only [BaseParamSet.check, Bool.and_eq_true, decide_eq_true_eq] at hcheck
  have hbound : P.P ≤ 379 := by omega
  obtain ⟨p, hp, hple, hp379, hprime⟩ := nextprime_spec hbound
  rw [hP1] at hp
  cases hp
  exact {
    one_le_K := by omega
    K_le := by omega
    Kprime_le := by omega
    L_eq := by omega
    W_add_P := by omega
    B_add_S := by omega
    U_add_H := by omega
    S_pos := by omega
    S_le := by omega
    H_ge := by omega
    H_le := by omega
    J_lt := by omega
    W_ge := by omega
    W_le := by omega
    W_prime := hW ▸ prime_of_trial (by omega) hcheck.2
    P_ge := by omega
    P_le_P1 := hple
    P1_le := hp379
    P1_prime := hprime }

theorem baseParamSets_S : ∀ row ∈ baseParamSets, row.S % 2 = 1 ∧ row.W ≤ row.S * row.S := by
  decide +kernel

/-- The number of LDPC rows is odd, and its square is not below the number of LT
columns. -/
theorem parametersGet_S {K : ℤ} {P : Parameters} (h : parametersGet K = .ok P) (hK : P.K ≠ -1) :
    P.S % 2 = 1 ∧ P.W ≤ P.S * P.S := by
  obtain ⟨-, -, row, hrow, -, -, hS, -, hW, -⟩ := parametersGet_row h hK
  rw [hS, hW]
  exact baseParamSets_S row (List.mem_of_find?_eq_some hrow)

/-- More symbols never need smaller parameters. -/
theorem parametersGet_mono {K₁ K₂ : ℤ} {P₁ P₂ : Parameters} (h₁ : parametersGet K₁ = .ok P₁)
    (h₂ : parametersGet K₂ = .ok P₂) (hK₁ : P₁.K ≠ -1) (hK₂ : P₂.K ≠ -1) (hle : K₁ ≤ K₂) :
    P₁.Kprime ≤ P₂.Kprime ∧ P₁.S ≤ P₂.S ∧ P₁.H ≤ P₂.H ∧ P₁.L ≤ P₂.L := by
  obtain ⟨-, -, row₁, hrow₁, hKp₁, -, hS₁, hH₁, -, hL₁, -⟩ := parametersGet_row h₁ hK₁
  obtain ⟨-, -, row₂, hrow₂, hKp₂, -, hS₂, hH₂, -, hL₂, -⟩ := parametersGet_row h₂ hK₂
  have hK₂' : K₂ ≤ row₂.Kprime := by simpa using List.find?_some hrow₂
  have hrel := find?_rel baseParamSets_chain hrow₁ (List.mem_of_find?_eq_some hrow₂)
    (by simpa using hle.trans hK₂')
  obtain ⟨hKprime, hS, hH⟩ := hrel
  omega

/-! ## What the lookup finds -/

theorem smallPrimes_eq : smallPrimes = (List.range 2000).filter trial := by decide +kernel

/-- The search gives the next prime. -/
theorem nextprime_isLeast {val p : ℕ} (h : nextprime val = .ok p) :
    IsLeast {q | q.Prime ∧ val ≤ q} p := by
  unfold nextprime at h
  split at h
  · rename_i q hq
    cases h
    have hge : val ≤ p := by simpa using List.find?_some hq
    obtain ⟨htrial, hlt⟩ := smallPrimes_check p (List.mem_of_find?_eq_some hq)
    refine ⟨⟨prime_of_trial (by omega) htrial, hge⟩, fun q ⟨hprime, hq_ge⟩ => ?_⟩
    rcases lt_or_ge q 2000 with hq_lt | hq_large
    · have hmem : q ∈ smallPrimes := by
        rw [smallPrimes_eq, List.mem_filter, List.mem_range]
        exact ⟨hq_lt, trial_of_prime hprime⟩
      exact find?_rel smallPrimes_chain hq hmem (by simpa using hq_ge)
    · omega
  · cases h

theorem exists_row_max : ∃ row ∈ baseParamSets, row.Kprime = 56403 := by decide +kernel

/-- No row of the table has room for an unsupported number of symbols. -/
theorem parametersGet_unsupported {K : ℤ} {P : Parameters} (h : parametersGet K = .ok P)
    (hK : P.K = -1) :
    P = .unsupported ∧ (0 < K → baseParamSets.find? (fun row => K ≤ row.Kprime) = none) := by
  unfold parametersGet at h
  split_ifs at h with hpos
  · cases h
    exact ⟨rfl, fun hK => absurd hK (by omega)⟩
  · split at h
    · rename_i hnone
      cases h
      exact ⟨rfl, fun _ => hnone⟩
    · rename_i row hrow
      cases hp : nextprime (row.Kprime + row.S + row.H - row.W) with
      | error e =>
          simp only [hp] at h
          cases h
      | ok p =>
          simp only [hp] at h
          cases h
          have hneg : K = -1 := hK
          omega

/-- Every number of symbols up to the last one of the table is supported. -/
theorem parametersGet_supported {K : ℤ} {P : Parameters} (h : parametersGet K = .ok P) :
    P.K ≠ -1 ↔ 0 < K ∧ K ≤ 56403 := by
  constructor
  · intro hK
    have hP := parametersGet_valid h hK
    have hle := hP.K_le
    have hmax := hP.Kprime_le
    obtain ⟨hpos, hPK, -⟩ := parametersGet_row h hK
    exact ⟨hpos, by omega⟩
  · rintro ⟨hpos, hmax⟩ hK
    obtain ⟨row, hmem, hrow⟩ := exists_row_max
    have hnone := (parametersGet_unsupported h hK).2 hpos
    have hlarge := List.find?_eq_none.mp hnone row hmem
    rw [hrow] at hlarge
    exact hlarge (by simpa using hmax)

/-- With padding the parameters are those for the number that the symbols are padded to. -/
theorem parametersGet_Kprime {K : ℤ} {P : Parameters} (h : parametersGet K = .ok P)
    (hK : P.K ≠ -1) : parametersGet P.Kprime = .ok { P with K := P.Kprime } := by
  obtain ⟨hpos, -, row, hrow, hKp, hJ, hS, hH, hW, hL, hP, hP1, hU, hB⟩ := parametersGet_row h hK
  have hle : K ≤ row.Kprime := by simpa using List.find?_some hrow
  have hfind : baseParamSets.find? (fun row => (P.Kprime : ℤ) ≤ row.Kprime) = some row := by
    obtain ⟨-, before, after, hlist, hbefore⟩ := List.find?_eq_some_iff_append.mp hrow
    refine List.find?_eq_some_iff_append.mpr ⟨by simp [hKp], before, after, hlist, fun a ha => ?_⟩
    have hlt := hbefore a ha
    simp only [Bool.not_eq_true', decide_eq_false_iff_not, hKp] at hlt ⊢
    omega
  have hneg : ¬ (P.Kprime : ℤ) ≤ 0 := by omega
  rw [hP, hL] at hP1
  unfold parametersGet
  rw [if_neg hneg]
  simp only [hfind, hP1]
  show Except.ok _ = Except.ok _
  congr 1
  ext <;> simp [hKp, hJ, hS, hH, hW, hL, hP, hU, hB]

/-- For every number of symbols from 1 to 56403 the parameters are those of the first row
of the table that has room for them, and `P1` is the next prime; for all others they mark
that the number is unsupported. -/
theorem parametersGet_spec (K : ℤ) : ∃ P, parametersGet K = .ok P ∧
    if 0 < K ∧ K ≤ 56403 then
      P.K = K ∧ ⟨P.Kprime, P.J, P.S, P.H, P.W⟩ ∈ baseParamSets ∧
        IsLeast {n : ℕ | K ≤ n ∧ ∃ row ∈ baseParamSets, row.Kprime = n} P.Kprime ∧
          P.L = P.Kprime + P.S + P.H ∧ P.W + P.P = P.L ∧ P.B + P.S = P.W ∧ P.U + P.H = P.P ∧
            P.W.Prime ∧ IsLeast {p | p.Prime ∧ P.P ≤ p} P.P1
    else P = .unsupported := by
  obtain ⟨P, h⟩ := exists_parametersGet K
  have hsupported := parametersGet_supported h
  refine ⟨P, h, ?_⟩
  split_ifs with hrange
  · have hK := hsupported.mpr hrange
    have hP := parametersGet_valid h hK
    obtain ⟨-, hPK, row, hrow, hKp, hJ, hS, hH, hW, -, -, hP1, -⟩ := parametersGet_row h hK
    have hmem := List.mem_of_find?_eq_some hrow
    have hle : K ≤ row.Kprime := by simpa using List.find?_some hrow
    refine ⟨hPK, ?_, ⟨⟨hKp ▸ hle, row, hmem, hKp.symm⟩, ?_⟩, hP.L_eq, hP.W_add_P, hP.B_add_S,
      hP.U_add_H, hP.W_prime, nextprime_isLeast hP1⟩
    · rw [hKp, hJ, hS, hH, hW]
      exact hmem
    · rintro _ ⟨hge, row', hmem', rfl⟩
      rw [hKp]
      exact (find?_rel baseParamSets_chain hrow hmem' (by simpa using hge)).1
  · exact (parametersGet_unsupported h (not_not.mp fun hK => hrange (hsupported.mp hK))).1

/-- The parameters of ten symbols, which need no padding. -/
def params10 : Parameters := ⟨10, 10, 254, 27, 7, 10, 10, 17, 10, 11, 0⟩

theorem parametersGet_ten : parametersGet 10 = .ok params10 := by decide +kernel

/-- The parameters of eleven symbols, which are padded to twelve. -/
def params11 : Parameters := ⟨11, 12, 630, 29, 7, 10, 12, 19, 10, 11, 0⟩

theorem parametersGet_eleven : parametersGet 11 = .ok params11 := by decide +kernel

end TvRQ
