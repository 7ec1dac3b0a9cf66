/-!
# Texts: logic

Truth values, sets that can be computed, worlds and propositions, signals over discrete time, and set theory.
-/

namespace SortedLogic.Theory.Text

def truthValues : String := "
B := Bool
let p q r: Bool
fact or_comm p q: p | q = q | p
fact or_assoc p q r: (p | q) | r = p | (q | r)
fact or_true p: p | true = true
fact or_false p: p | false = p
fact or_idem p: p | p = p
fact or_absorb p q: p | (p & q) = p
fact or_distr p q r: p | (q & r) = (p | q) & (p | r)
fact or_compl p: p | ~p = true
fact and_comm p q: p & q = q & p
fact and_assoc p q r: (p & q) & r = p & (q & r)
fact and_true p: p & true = p
fact and_false p: p & false = false
fact and_absorb p q: (p & (p | q)) = p
fact and_compl p: p & ~p = false
fact and_idem p: p & p = p
fact imp_true p: (true => p) = p
fact imp_false p: (false => p) = true
fact imp_idem p: (p => p) = true
fact imp_refl p: p => p
fact imp_trans: every p q r where (p => q); (q => r): p => r
fact not_true: ~true = false
fact not_false: ~false = true
fact not_inv p: ~~p = p
fact not_and p q: ~(p & q) = (~p | ~q)
fact not_or p q: ~(p | q) = (~p & ~q)
fact xor_neq p q: (p ^ q) = (p != q)
fact xor_comm p q: p ^ q = q ^ p
fact xor_assoc p q r: (p ^ q) ^ r = p ^ (q ^ r)
fact xor_idem p: p ^ p = false
fact xor_true p: p ^ true = ~p
fact xor_false p: p ^ false = p
sort T
let a b: T
fact if_true a b: if(yes, a, b) = a
fact if_false a b: if(no, a, b) = b
rws := [or_true, or_false, or_idem, or_absorb, or_distr, or_compl, and_comm, and_assoc, and_true, and_false, and_absorb,
  and_compl, imp_true, imp_false, imp_idem, imp_refl, xor_idem, xor_true, xor_false, if_true, if_false]
"

def computableSets : String := "
uses set_ = set
IntSet := set_.Set(Int)
symbol computable: IntSet -> Bool
let n m: Int
let A B: IntSet
symbol bexists: IntSet, Int -> Bool
define bexists 'bexist' (A, n) := if(n < 0, no, (A[n] or bexists(A, n - 1)))
symbol bforall: IntSet, Int -> Bool
define bforall (A, n) := if(n < 0, yes, (A[n] and bforall(A, n - 1)))
symbol mu_iter: IntSet, Int -> Int
define mu_iter (A, n) := if(A[n], n, mu_iter(A, n + 1))
define mu (A) := mu_iter(A, 0)
"

/-- Propositions over worlds, which stay true in every world that can be reached. -/
def intuitionistic : String := "
sort World
let w u v: World
symbol acc: World, World -> Bool
law acc_refl w: acc(w, w)
law acc_trans: every w u v where acc(w, u); acc(u, v): acc(w, v)
record Prop (val : Array(World, Bool)) where p: every w u where acc(w, u); p.val[w]: p.val[u]
function And Or Implies
TRUE := Prop(K(World, true))
FALSE := Prop(K(World, false))
function Not Valid Sort Const
let a b c: Prop
define and_ 'iand' (a, b) := And(a, b)
define or_ 'ior' (a, b) := Or(a, b)
define impl_ 'iimpl' (a, b) := Implies(a, b)
define not_ 'inot' (a) := Not(a)
define valid (a) := Valid(a)
method and_ on Prop := and_
method or_ on Prop := or_
method invert on Prop := not_
fact impl_aba: every a b: Valid(Implies(a, Implies(b, a)))
fact and_elim1: every a b: Valid(Implies(And(a, b), a))
fact and_elim2: every a b: Valid(Implies(And(a, b), b))
fact or_intro1: every a b: Valid(Implies(a, Or(a, b)))
fact or_intro2: every a b: Valid(Implies(b, Or(a, b)))
"

def temporal : String := "
function lift_unop lift_binop Not Eq NEq TSort is_T
TBool := TSort(Bool)
TInt := TSort(Int)
TReal := TSort(Real)
TString := TSort(String)
let x y: TInt
let t: Int
overload ge (x, y) := TBool(fun t: x.val[t] >= y.val[t])
overload le (x, y) := TBool(fun t: x.val[t] <= y.val[t])
function TLift And Or Next X Always G Eventually F If Implies UNCHANGED Valid
let p q: TBool
define tnot (p) := Not(p)
define tand (p, q) := And(p, q)
define tor (p, q) := Or(p, q)
define timpl (p, q) := Implies(p, q)
implies := timpl
define eventually (p) := Eventually(p)
define always (p) := Always(p)
define bnext 'next' (p) := Next(p)
define beq (p, q) := Eq(p, q)
define valid (p) := Valid(p)
fact valid_and p q: valid(tand(p, q)) = (valid(p) and valid(q))
fact valid_or p q: valid(tor(p, q)) = (valid(p) or valid(q))
fact valid_impl p q: valid(timpl(p, q)) = (valid(p) => valid(q))
fact valid_not p q: valid(tnot(p)) = (not valid(p))
let x y: TInt
define ieq (x, y) := Eq(x, y)
define ineq (x, y) := NEq(x, y)
define inext (x) := Next(x)
define if_int (p, x, y) := If(p, x, y)
let x: Int
define tint (x) := TInt(K(Int, x))
function Bool Bools Int Ints
"

def zermelo : String := "
sort ZFSet
Set := ZFSet
let A B x y z: ZFSet
symbol elem: ZFSet, ZFSet -> Bool
Class := Array(ZFSet, Bool)
let P Q: Class
define klass (A) := fun x: elem(x, A)
function slemma
let emp: ZFSet
law emp_ax x: not elem(x, emp)
symbol upair: ZFSet, ZFSet -> ZFSet
law upair_ax: every x y z: elem(z, upair(x, y)) = (z = x or z = y)
law ext_ax: every A B: (forall x: elem(x, A) = elem(x, B)) = (A = B)
symbol sep: ZFSet, Class -> ZFSet
law sep_ax: every P A x: elem(x, sep(A, P)) = (P[x] and elem(x, A))
zf_db := [emp_ax, upair_ax, ext_ax, sep_ax]
overload le le (A, B) := every x where elem(x, A): elem(x, B)
symbol union: Set, Set -> Set
method or_ on Set := union
symbol inter: Set, Set -> Set
method and_ on Set := inter
"

/-! ## Texts: bit patterns and numbers of a machine -/

def bitFacts : String := "
let x y z: S
zero := bits(0, N)
one := bits(1, N)
all := bits(-1, N)
S.BVNot := symbolOf(~x)
S.zero := zero
S.one := one
fact S.bvadd_comm x y: x + y = y + x
fact S.bvadd_assoc x y z: (x + y) + z = x + (y + z)
fact S.bvadd_id x: x + zero = x
fact S.bvadd_neg x: x + (-x) = zero
fact S.bvsub_self x: x - x = zero
fact S.bvsub_def x y: x - y = x + (-y)
fact S.bvmul_comm x y: x * y = y * x
fact S.bvmul_assoc x y z: (x * y) * z = x * (y * z)
fact S.bvmul_id x: x * one = x
fact S.bvmul_zero x: x * zero = zero
fact S.bvand_comm x y: x & y = y & x
fact S.bvand_assoc x y z: (x & y) & z = x & (y & z)
fact S.bvand_id x: x & all = x
fact S.bvand_zero x: x & zero = zero
fact S.bvor_comm x y: x | y = y | x
fact S.bvor_assoc x y z: (x | y) | z = x | (y | z)
fact S.bvor_id x: x | zero = x
fact S.bvor_neg x: x | ~x = all
fact S.bvxor_comm x y: x ^ y = y ^ x
fact S.bvxor_assoc x y z: (x ^ y) ^ z = x ^ (y ^ z)
fact S.bvxor_id x: x ^ zero = x
fact S.bvxor_self x: x ^ x = zero
fact S.bvshl_zero x: x << zero = x
fact S.bvshr_zero x: shiftRight(x, zero) = x
fact S.bvand_self x: x & x = x
fact S.bvor_self x: x | x = x
fact S.bvxor_zero x: x ^ zero = x
fact S.bvnot_self x: ~x = -x - 1
fact S.bvshl_self x y: x << y = x * (one << y)
fact S.bvsub_zero x: x - zero = x
fact S.bvsub_id x: zero - x = -x
fact S.bvadd_sub x y: x + (-y) = x - y
fact S.bvsub_add x y: x - (-y) = x + y
fact S.bvand_allones x: x & all = x
fact S.bvor_allzeros x: x | zero = x
fact S.bvxor_allzeros x: x ^ zero = x
fact S.bvand_or x y z: x & (y | z) = (x & y) | (x & z)
fact S.bvor_and x y z: x | (y & z) = (x | y) & (x | z)
fact S.bvand_absorb x y: x & (x | y) = x
fact S.bvor_absorb x y: x | (x & y) = x
fact S.bvshl_zero_shift x: x << zero = x
fact S.bvshr_zero_shift x: shiftRight(x, zero) = x
fact S.bvshl_allzeros y: zero << y = zero
fact S.bvshr_allzeros y: shiftRight(zero, y) = zero
fact S.bvor_and_not x y: (x & y) | (x & ~y) = x
fact S.bvshl_and x y z: (x & y) << z = (x << z) & (y << z)
fact S.bvshr_and x y z: shiftRight(x & y, z) = shiftRight(x, z) & shiftRight(y, z)
"

def bitPatterns : String := "
uses seq = seq
function BitVecSort
BV1 := BitVecSort(1)
BV8 := BitVecSort(8)
record BitVecN (val : seq.Seq(BV1))
BVN := BitVecN
BVN.empty := BVN(empty(seq.Seq(BV1)))
let x y z: BitVecN
symbol to_int: BitVecN -> Int
overload to_int to_int (x) := if(length(x.val) = 0, int(0),
  unsigned(x.val[0]) + 2 * to_int(BitVecN(slice(x.val, 1, length(x.val) - 1))))
function BitVecNVal
fact to_int_empty: to_int(BitVecNVal(0, 0)) = int(0)
fact to_int_false: to_int(BitVecNVal(0, 1)) = int(0)
fact to_int_true: to_int(BitVecNVal(1, 1)) = int(1)
function fromBV toBV BitVecNConst BVNot SelectConcat StoreConcat select64 PopCount
"

def fixedPoint : String := "
function FixedSort
"

def floats : String := "
F16 := Float(5, 11)
F32 := Float(8, 24)
F64 := Float(11, 53)
F128 := Float(15, 113)
function IsFinite NoOverflow
fact zeroF_is_positive: isPositive(floatZero(F32, no))
fact zeroF_is_negative: isNegative(floatZero(F32, yes))
RMSort := RoundingMode
symbol round 'round32': RMSort, Real -> Real
let x y: Real
let m m1 m2: RMSort
law round_def: every m x where NoOverflow(m, x, F32): round(m, x) = floatValue(roundTo(m, x, F32))
pow2sb := int(16777216)
max_int := int(340282346638528859811704183484516925440)
max_real := real(1.9999998807907104) * 170141183460469231731687303715884105728
let z: F32
fact minfloat: every z where IsFinite(z): z >= roundTo(nearestEven, -max_real, F32)
fact special_cases z: isNaN(z) or isInfinite(z) or isZero(z) or isNormal(z) or isSubnormal(z)
function in_range is_finite no_overflow
fact bounded_real_no_overflow: in_range(x) => NoOverflow(m, x, F32)
law bounded_no_overflow: every m x where in_range(x): no_overflow(m, x)
law round_monotonic: every x y where x <= y: round(m, x) <= round(m, y)
law round_idem: every x m1 m2: round(m1, round(m2, x)) = round(m2, x)
law round_to_real: every z m where IsFinite(z): round(m, floatValue(z)) = floatValue(z)
law round_down_le x: round(downward, x) <= x
law round_up_ge x: round(upward, x) >= x
law round_down_neg x: round(downward, -x) = -round(upward, x)
law round_up_neg x: round(upward, -x) = -round(downward, x)
max64 := real('1.7976931348623157e308')
let z: F64
fact max_real_thm: every z where IsFinite(z): z <= roundTo(nearestEven, max64, F64)
fact min_float64: every z where IsFinite(z): z >= roundTo(nearestEven, -max64, F64)
"

/-! ## Texts: exercises -/

def enumerations : String := "
datatype day := monday | tuesday | wednesday | thursday | friday | saturday | sunday
let d: day
define next_weekday (d) := cases([d.is_monday, day.tuesday], [d.is_tuesday, day.wednesday],
  [d.is_wednesday, day.thursday], [d.is_thursday, day.friday], [d.is_friday, day.monday],
  [d.is_saturday, day.monday], [d.is_sunday, day.monday])
datatype bool := true | false
let b b1 b2: bool
define negb (b) := cases([b.is_true, bool.false], [b.is_false, bool.true])
define andb (b1, b2) := cases([b1.is_true, b2], [b1.is_false, bool.false])
define orb (b1, b2) := cases([b1.is_true, bool.true], [b1.is_false, b2])
method or_ on bool := orb
method and_ on bool := andb
define negb1 (b) := if(b1.is_true, bool.false, bool.true)
define andb1 (b1, b2) := if(b1.is_true, b2, bool.false)
define orb1 (b1, b2) := if(b1.is_true, bool.true, b2)
datatype rgb := red | green | blue
datatype color := black | white | primary(p : rgb)
let c: color
let p: rgb
define monochome 'monochrome' (c) := match(c, [color.black, bool.true], [color.white, bool.true], [color.primary(p), bool.false])
define isred (c) := match(c, [color.primary(rgb.red), bool.true], bool.false)
datatype bit := B1 | B0
record nybble (b0 : bit, b1 : bit, b2 : bit, b3 : bit)
datatype Nat := O | S(n : Nat)
datatype otherNat := O | S(n : otherNat)
let n: Nat
define pred (n) := match(n, [Nat.O, Nat.O], [Nat.S(n), n])
object l 'Lemma'
"

def equations : String := "
uses nat = nat
uses seq = seq
let m n: nat.Nat
fact silly1: every n m where n = m: n = m
let n m o p: nat.Nat
fact silly2: every n m o p where n = m; (n = m => seq.seq(n, o) = seq.seq(m, p)): seq.seq(n, o) = seq.seq(m, p)
fresh _o 'o': nat.Nat
fresh _p 'p': nat.Nat
let q r: nat.Nat
fact silly2a: every n m where seq.seq(n, n) = seq.seq(m, m);
  (every q r where seq.seq(q, q) = seq.seq(r, r): seq.seq(q) = seq.seq(r)): seq.seq(n) = seq.seq(m)
fresh _n 'n': nat.Nat
fresh _m 'm': nat.Nat
fact silly3: every n m where n = m: m = n
let a b c d e f: nat.Nat
fresh _a 'a': nat.Nat
fresh _b 'b': nat.Nat
fresh _c 'c': nat.Nat
fresh _d 'd': nat.Nat
fresh _e 'e': nat.Nat
fresh _f 'f': nat.Nat
fact trans_eq_example: every a b c d e f where seq.seq(a, b) = seq.seq(c, d); seq.seq(c, d) = seq.seq(e, f):
  seq.seq(a, b) = seq.seq(e, f)
object l 'Lemma'
"

def setUniverse : String := "
uses set_ = set
sort V
let x y z: V
let X Y Z: set_.Set(V)
symbol elts: V -> set_.Set(V)
law ext: every x y where elts(x) = elts(y): x = y
law down_raw: every Y x where Y <= elts(x): set_.member(Y, set_.Range(elts))
"

end SortedLogic.Theory.Text
