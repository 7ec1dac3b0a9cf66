import SortedLogic.Text.Latin

/-!
# Numerals of all scripts

Decimal digits come in runs of ten; the other characters that stand for numbers are listed.
-/

namespace SortedLogic.Text

def digitZeros : List Nat :=
  [0x30, 0x660, 0x6f0, 0x7c0, 0x966, 0x9e6, 0xa66, 0xae6, 0xb66, 0xbe6, 0xc66, 0xce6, 0xd66, 0xde6, 0xe50,
   0xed0, 0xf20, 0x1040, 0x1090, 0x17e0, 0x1810, 0x1946, 0x19d0, 0x1a80, 0x1a90, 0x1b50, 0x1bb0, 0x1c40,
   0x1c50, 0xa620, 0xa8d0, 0xa900, 0xa9d0, 0xa9f0, 0xaa50, 0xabf0, 0xff10, 0x104a0, 0x10d30, 0x11066, 0x110f0,
   0x11136, 0x111d0, 0x112f0, 0x11450, 0x114d0, 0x11650, 0x116c0, 0x11730, 0x118e0, 0x11950, 0x11c50, 0x11d50,
   0x11da0, 0x16a60, 0x16ac0, 0x16b50, 0x1d7ce, 0x1d7d8, 0x1d7e2, 0x1d7ec, 0x1d7f6, 0x1e140, 0x1e2f0, 0x1e950, 0x1fbf0]

def numericRanges : List (Nat × Nat) :=
  [(0xb2, 0xb3), (0xbc, 0xbe), (0x9f4, 0x9f9), (0xb72, 0xb77), (0xbf0, 0xbf2), (0xc78, 0xc7e), (0xd58, 0xd5e),
   (0xd70, 0xd78), (0xf2a, 0xf33), (0x1369, 0x137c), (0x16ee, 0x16f0), (0x17f0, 0x17f9), (0x2074, 0x2079),
   (0x2080, 0x2089), (0x2150, 0x2182), (0x2185, 0x2189), (0x2460, 0x249b), (0x24ea, 0x24ff), (0x2776, 0x2793),
   (0x3021, 0x3029), (0x3038, 0x303a), (0x3192, 0x3195), (0x3220, 0x3229), (0x3248, 0x324f), (0x3251, 0x325f),
   (0x3280, 0x3289), (0x32b1, 0x32bf), (0x4ebf, 0x4ec0), (0x5343, 0x5345), (0x53c1, 0x53c4), (0x5efe, 0x5eff),
   (0x5f0c, 0x5f0e), (0xa6e6, 0xa6ef), (0xa830, 0xa835), (0x10107, 0x10133), (0x10140, 0x10178),
   (0x1018a, 0x1018b), (0x102e1, 0x102fb), (0x10320, 0x10323), (0x103d1, 0x103d5), (0x10858, 0x1085f),
   (0x10879, 0x1087f), (0x108a7, 0x108af), (0x108fb, 0x108ff), (0x10916, 0x1091b), (0x109bc, 0x109bd),
   (0x109c0, 0x109cf), (0x109d2, 0x109ff), (0x10a40, 0x10a48), (0x10a7d, 0x10a7e), (0x10a9d, 0x10a9f),
   (0x10aeb, 0x10aef), (0x10b58, 0x10b5f), (0x10b78, 0x10b7f), (0x10ba9, 0x10baf), (0x10cfa, 0x10cff),
   (0x10e60, 0x10e7e), (0x10f1d, 0x10f26), (0x10f51, 0x10f54), (0x10fc5, 0x10fcb), (0x11052, 0x11065),
   (0x111e1, 0x111f4), (0x1173a, 0x1173b), (0x118ea, 0x118f2), (0x11c5a, 0x11c6c), (0x11fc0, 0x11fd4),
   (0x12400, 0x1246e), (0x16b5b, 0x16b61), (0x16e80, 0x16e96), (0x1d2e0, 0x1d2f3), (0x1d360, 0x1d378),
   (0x1e8c7, 0x1e8cf), (0x1ec71, 0x1ecab), (0x1ecad, 0x1ecaf), (0x1ecb1, 0x1ecb4), (0x1ed01, 0x1ed2d),
   (0x1ed2f, 0x1ed3d), (0x1f100, 0x1f10c)]

def numericSigns : List Nat :=
  [0xb9, 0x19da, 0x2070, 0x2cfd, 0x3007, 0x3405, 0x3483, 0x382a, 0x3b4d, 0x4e00, 0x4e03, 0x4e07, 0x4e09,
   0x4e5d, 0x4e8c, 0x4e94, 0x4e96, 0x4edf, 0x4ee8, 0x4f0d, 0x4f70, 0x5104, 0x5146, 0x5169, 0x516b, 0x516d,
   0x5341, 0x534c, 0x56db, 0x58f1, 0x58f9, 0x5e7a, 0x5f10, 0x62fe, 0x634c, 0x67d2, 0x6f06, 0x7396, 0x767e,
   0x8086, 0x842c, 0x8cae, 0x8cb3, 0x8d30, 0x9621, 0x9646, 0x964c, 0x9678, 0x96f6, 0xf96b, 0xf973, 0xf978,
   0xf9b2, 0xf9d1, 0xf9d3, 0xf9fd, 0x10341, 0x1034a, 0x20001, 0x20064, 0x200e2, 0x20121, 0x2092a, 0x20983,
   0x2098c, 0x2099c, 0x20aea, 0x20afd, 0x20b19, 0x22390, 0x22998, 0x23b1b, 0x2626d, 0x2f890]

def digitValue? (c : Char) : Option Nat :=
  (digitZeros.find? fun z => z ≤ c.toNat && c.toNat < z + 10).map (c.toNat - ·)

def isNumeric (c : Char) : Bool :=
  (digitValue? c).isSome || numericSigns.contains c.toNat || numericRanges.any fun (a, b) => a ≤ c.toNat && c.toNat ≤ b

def number? (cs : List Char) : Option Nat :=
  if cs.isEmpty then none
  else cs.foldlM (fun n c => (digitValue? c).map (10 * n + ·)) 0

def grouped? : Nat → List Char → Option Nat
  | n, [] => some n
  | _, ['_'] => none
  | n, '_' :: c :: cs => do grouped? (10 * n + (← digitValue? c)) cs
  | n, c :: cs => do grouped? (10 * n + (← digitValue? c)) cs

def integer? (s : String) : Option Int :=
  let unsigned? : List Char → Option Nat
    | [] => none
    | c :: cs => do grouped? (← digitValue? c) cs
  match (trim s).toList with
  | '-' :: cs => (unsigned? cs).map fun (n : Nat) => -(n : Int)
  | '+' :: cs => (unsigned? cs).map fun (n : Nat) => (n : Int)
  | cs => (unsigned? cs).map fun (n : Nat) => (n : Int)

end SortedLogic.Text
