/-!
# Texts: real numbers

The reals with their functions, sequences, limits and derivatives; intervals, complex and extended numbers.
-/

namespace SortedLogic.Theory.Text

def reals : String := "
R := Real
RFun := Array(R, R)
RSeq := Array(Int, R)
real_db := []
real_simp := []
function rlemma
let x y z: Real
let f g: RFun
overload add fadd (f, g) := fun x: f[x] + g[x]
overload sub fsub (f, g) := fun x: f[x] - g[x]
overload mul fmul (f, g) := fun x: f[x] * g[x]
overload div_ fdiv (f, g) := fun x: f[x] / g[x]
symbol poly: RFun -> Bool
let a b: RSeq
let i: Int
overload add seqadd (a, b) := fun i: a[i] + b[i]
overload sub seqsub (a, b) := fun i: a[i] - b[i]
overload mul seqmul (a, b) := fun i: a[i] * b[i]
overload div_ seqdiv (a, b) := fun i: a[i] / b[i]
symbol Sum: RSeq, Int, Int -> R
define add (x, y) := x + y
fact add_0 x: add(x, 0) = x
fact add_comm x y: add(x, y) = add(y, x)
fact add_assoc x y z: add(x, add(y, z)) = add(add(x, y), z)
define sub (x, y) := x - y
fact sub_0 x: sub(x, 0) = x
fact sub_add x y z: (add(x, y) = z) = (x = sub(z, y))
define mul (x, y) := x * y
fact mul_zero x: mul(x, 0) = 0
fact mul_1 x: mul(x, 1) = x
fact mul_comm x y: mul(x, y) = mul(y, x)
fresh _z 'z': Real
fact mul_assoc x y z: mul(x, mul(y, z)) = mul(mul(x, y), z)
fact mul_distrib x y z: mul(x, add(y, z)) = add(mul(x, y), mul(x, z))
function abstract_arith
define abs 'absR' (x) := if(x >= 0, x, -x)
define sgn (x) := if(x > 0, 1, if(x < 0, -1, 0))
fact sgn_abs x: abs(x) * sgn(x) = x
fact abs_le x y: (abs(x) <= y) = (-y <= x and x <= y)
fact abs_idem x: abs(abs(x)) = abs(x)
fact abs_neg x: abs(-x) = abs(x)
fact abs_pos x: abs(x) >= 0
fact abs_add x y: abs(x + y) <= abs(x) + abs(y)
fact abs_mul x y: abs(x * y) = abs(x) * abs(y)
fact abs_triangle x y z: abs(x - y) <= abs(x - z) + abs(z - y)
define nonneg (x) := abs(x) = x
fact nonneg_ge_0 x: nonneg(x) = (x >= 0)
define max (x, y) := if(x >= y, x, y)
fact max_le x y: (x <= y) = (max(x, y) = y)
fact max_comm x y: max(x, y) = max(y, x)
fact max_assoc x y z: max(x, max(y, z)) = max(max(x, y), z)
fact max_idem x: max(x, x) = x
fact max_ge x y: max(x, y) >= x
fact max_ge_2 x y: max(x, y) >= y
define min (x, y) := if(x <= y, x, y)
fact min_le x y: (x <= y) = (min(x, y) = x)
fact min_comm x y: min(x, y) = min(y, x)
fact min_assoc x y z: min(x, min(y, z)) = min(min(x, y), z)
fact min_idem x: min(x, x) = x
fact min_le_2 x y: min(x, y) <= x
fact min_le_3 x y: min(x, y) <= y
let n m: Int
fact to_real_add n m: toReal(n + m) = toReal(n) + toReal(m)
fact to_real_sub n m: toReal(n - m) = toReal(n) - toReal(m)
fact to_real_mul n m: toReal(n * m) = toReal(n) * toReal(m)
fact to_real_neg n: toReal(-n) = -toReal(n)
fact to_real_inj n m: (toReal(n) = toReal(m)) = (n = m)
fact to_real_mono n m: (n < m) = (toReal(n) < toReal(m))
define floor (x) := toReal(toInt(x))
fact int_real_galois_lt x n: (x < toReal(n)) = (toInt(x) < n)
fact int_real_galois_le x n: (toReal(n) <= x) = (n <= toInt(x))
fact _2 x: toInt(floor(x)) = toInt(x)
fact floor_idem x: floor(floor(x)) = floor(x)
fact floor_le x: floor(x) <= x
fact floor_gt x: x < floor(x) + 1
define pow (x, y) := x ** y
law pow_add: every x y z where x >= 0: pow(x, y + z) = pow(x, y) * pow(x, z)
fact pow_one: every x: pow(x, 1) = x
fact pow_two: every x: pow(x, 2) = x * x
fact pow_three: every x: pow(x, 3) = x * x * x
define sqr (x) := x * x
define sqrt (x) := x ** 0.5
fact sqrt_pos: every x where x >= 0: sqrt(x) >= 0
fact sqrt_define x: sqrt(x) = x ** 0.5
fact sqrt_square: every x where x >= 0: sqrt(x) ** 2 = x
fact sqr_sqrt: every x where x >= 0: sqr(sqrt(x)) = x
fresh _ 'x': Real
fact sqrt_sqr: every x where x >= 0: sqrt(sqr(x)) = x
symbol exp: R -> R
law exp_add x y: exp(x + y) = exp(x) * exp(y)
law exp_lower x: exp(x) >= 1 + x
law exp_pos x: exp(x) > 0
fact exp_zero x: exp(0) = 1
fact exp_div x y: exp(x) * exp(-x) = 1
fact exp_nzero x: exp(x) != 0
fact exp_inv x: exp(-x) = 1 / exp(x)
symbol ln: R -> R
law ln_exp x: ln(exp(x)) = x
law ln_mul: every x y where x > 0; y > 0: ln(x * y) = ln(x) + ln(y)
fact ln_one x: ln(1) = 0
law exp_ln: every x where x > 0: exp(ln(x)) = x
symbol cos: R -> R
symbol sin: R -> R
law pythag x: cos(x) ** 2 + sin(x) ** 2 = 1
fact pythag_1 x: 1 - sin(x) ** 2 = cos(x) ** 2
fact pythag_2 x: 1 - cos(x) ** 2 = sin(x) ** 2
fact cos_abs_le x: abs(cos(x)) <= 1
fact sin_abs_le x: abs(sin(x)) <= 1
law cos_0: cos(0) = 1
fact sin_0: sin(0) = 0
let pi: R
law pi_bnd: 3.14159 < pi and pi < 3.14160
law cos_pi: cos(pi) = -1
fact sin_pi: sin(pi) = 0
law cos_neg x: cos(-x) = cos(x)
law sin_neg x: sin(-x) = -sin(x)
law cos_add x y: cos(x + y) = cos(x) * cos(y) - sin(x) * sin(y)
law sin_add x y: sin(x + y) = sin(x) * cos(y) + cos(x) * sin(y)
fresh _x 'x': Real
fresh _y 'y': Real
fact cos_diff x y: cos(x - y) = cos(x) * cos(y) + sin(x) * sin(y)
define tan (x) := sin(x) / cos(x)
symbol atan: R -> R
symbol acos: R -> R
symbol asin: R -> R
define comp (f, g) := fun x: f(g(x))
method matmul on RFun := comp
define ident () := fun x: x
define const (x) := K(Real, x)
X := ident
let a: RSeq
let mod: Array(Real, Int)
let N m n k: Int
let eps: Real
define is_cauchy (a) := every eps where eps > 0: (exists N: (every m k where m > N; k > N: abs(a[m] - a[k]) < eps))
define cauchy_mod (a, mod) := every eps where eps > 0: (every m k where m > mod[eps]; k > mod[eps]: abs(a[m] - a[k]) < eps)
define is_convergent (a) := every eps where eps > 0: (exists N: (every m where m > N: (exists x: abs(a[m] - x) < eps)))
zeroseq := K(Int, real(0))
define deltaseq 'delta' (n, x) := fun n: if(n = 0, x, 0)
symbol seqsum: RSeq -> R
law seqsum_zero: seqsum(zeroseq) = 0
law seqsum_delta n x: seqsum(deltaseq(n, x)) = x
symbol sum_converges: RSeq -> Bool
law sum_converges_zero: sum_converges(zeroseq)
law sum_converges_delta n x: sum_converges(deltaseq(n, x))
law sum_converges_add: every a b where sum_converges(a); sum_converges(b): sum_converges(a + b)
law seqsum_add: every a b where sum_converges(a); sum_converges(b): seqsum(a + b) = seqsum(a) + seqsum(b)
symbol psum: RSeq -> RSeq
let delta p L: Real
define has_lim_at (f, p, L) := every eps where eps > real(0): (exists delta where delta > 0:
  (every x where real(0) < abs(x - p); abs(x - p) < delta: abs(f[x] - L) < eps))
symbol lim: RFun, R -> R
law lim_def: every f x y where has_lim_at(f, x, y): lim(f, x) = y
define seqlim (a, y) := every eps where eps > 0: (exists N: (every n where n > N: abs(a[n] - y) < eps))
symbol has_diff_at: RFun, R, R -> Bool
define diff_at (f, x) := exists y: has_diff_at(f, x, y)
define cont_at (f, x) := every eps where eps > 0: (exists delta where delta > 0:
  (every y where abs(x - y) < delta: abs(f[x] - f[y]) < eps))
define is_diff (f) := forall x: diff_at(f, x)
define is_cont (f) := forall x: cont_at(f, x)
law diff_cont: every f where is_diff(f): is_cont(f)
law sin_diff: is_diff(fun x: sin(x))
fact sin_cont: is_cont(fun x: sin(x))
symbol deriv: RFun -> RFun
law deriv_const x: deriv(const(x)) = const(0)
law deriv_ident: deriv(X) = const(1)
law deriv_sin: deriv(fun x: sin(x)) = (fun x: cos(x))
law deriv_cos: deriv(fun x: cos(x)) = (fun x: -sin(x))
law deriv_exp: deriv(fun x: exp(x)) = (fun x: exp(x))
law deriv_add f g: deriv(f + g) = deriv(f) + deriv(g)
law deriv_mul f g: deriv(f * g) = deriv(f) * g + f * deriv(g)
symbol is_integ: RFun -> Bool
symbol integrate: RFun, R, R -> R
symbol summation: RFun, R, R -> R
record Powser (val : RSeq)
function sqrt_upper sqrt_lower sqrt_bnd sin_lower
object _l 'Lemma'
"

def intervals : String := "
uses R = real
record Interval (lo : Real, hi : Real)
let x y z: Real
let i j k: Interval
define setof (i) := fun x: i.lo <= x and x <= i.hi
define meet (i, j) := Interval.mk(R.max(i.lo, j.lo), R.min(i.hi, j.hi))
fact meet_intersect i j: setInter(setof(i), setof(j)) = setof(meet(i, j))
define join (i, j) := Interval.mk(R.min(i.lo, j.lo), R.max(i.hi, j.hi))
fact join_union i j: subset(setUnion(setof(i), setof(j)), setof(join(i, j)))
define width (i) := i.hi - i.lo
define mid (i) := (i.lo + i.hi) / 2
overload add add (i, j) := Interval.mk(i.lo + j.lo, i.hi + j.hi)
fact add_set x y i j: setof(i)[x] & setof(j)[y] => setof(i + j)[x + y]
overload sub sub (i, j) := Interval.mk(i.lo - j.hi, i.hi - j.lo)
"

def complexNumbers : String := "
uses real = real
record C (re : Real, im : Real)
let z w u z1 z2: C
define add (z1, z2) := C.C(z1.re + z2.re, z1.im + z2.im)
method add on C := add
define mul (z1, z2) := C.C(z1.re * z2.re - z1.im * z2.im, z1.re * z2.im + z1.im * z2.re)
method mul on C := mul
define conj (z) := C.C(z.re, -z.im)
overload div_ div (z1, z2) := C.C((z1.re * z2.re + z1.im * z2.im) / (z2.re ** 2 + z2.im ** 2),
  (z1.im * z2.re - z1.re * z2.im) / (z2.re ** 2 + z2.im ** 2))
C0 := C.C(0, 0)
C1 := C.C(1, 0)
Ci := C.C(0, 1)
fact add_zero z: z + C0 = z
fact mul_zero z: z * C0 = C0
fact mul_one z: z * C1 = z
fact add_comm z w: z + w = w + z
fact add_assoc z w u: (z + (w + u)) = ((z + w) + u)
fact mul_comm z w: z * w = w * z
define norm2 (z) := z * conj(z)
let t s: Real
define expi (t) := C.C(real.cos(t), real.sin(t))
fact _1 t s: expi(t) * expi(s) = C.C(real.cos(t) * real.cos(s) - real.sin(t) * real.sin(s),
  real.cos(t) * real.sin(s) + real.sin(t) * real.cos(s))
fact _2 t s: C.C(real.cos(t + s), real.sin(t + s)) = expi(t + s)
fact _3: every t s: C.C(real.cos(t) * real.cos(s) - real.sin(t) * real.sin(s),
  real.cos(t) * real.sin(s) + real.sin(t) * real.cos(s)) = C.C(real.cos(t + s), real.sin(t + s))
fact expi_mul: every t s: expi(t) * expi(s) = expi(t + s)
datatype RSphere := Finite(val : C) | Inf
object RSphere 'Datatype'
object c 'Calc'
"

def extendedReals : String := "
union EReal := Real(val : Real) | Inf | NegInf
let x y z: EReal
overload le le (x, y) := cases([x = y, true], [x.is_NegInf, true], [y.is_Inf, true], [y.is_NegInf, false],
  [x.is_Inf, false], [(x.is_Real and y.is_Real), x.val <= y.val])
fact le_refl: every x: x <= x
fact le_trans: every x y z where x <= y; y <= z: x <= z
fact le_total x y: x <= y or y <= x
symbol add_undef: EReal, EReal -> EReal
overload add add (x, y) := cases([(x.is_Real and y.is_Real), EReal.Real(x.val + y.val)],
  [(x.is_Inf and not y.is_NegInf), EReal.Inf], [(not x.is_NegInf and y.is_Inf), EReal.Inf],
  [(x.is_NegInf and not y.is_Inf), EReal.NegInf], [(not x.is_Inf and y.is_NegInf), EReal.NegInf], add_undef(x, y))
define add_defined (x, y) := (x.is_Real and y.is_Real) or (x.is_Inf and not y.is_NegInf) or
  (not x.is_NegInf and y.is_Inf) or (x.is_NegInf and not y.is_Inf) or (not x.is_Inf and y.is_NegInf)
fact defined_undef: every x y where not add_defined(x, y): x + y = add_undef(x, y)
fact add_comm: every x y where add_defined(x, y): x + y = y + x
fact add_comm1: every x y where add_undef(x, y) = add_undef(y, x): x + y = y + x
union EPosReal := real(val : Real) | inf
x_p := named('x', EPosReal)
overload wf (x_p) := x_p.is_real => x_p.val >= 0
"

end SortedLogic.Theory.Text
