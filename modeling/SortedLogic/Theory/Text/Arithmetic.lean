/-!
# Texts: arithmetic

Integers, the natural numbers as a datatype, and the two theories of successor arithmetic, with and without induction.
-/

namespace SortedLogic.Theory.Text

def integers : String := "
Z := Int
function induct_nat
let n x: Int
let P: Array(Int, Bool)
fresh _P 'P': Array(Int, Bool)
fresh _x 'x': Int
fact induct_nat_ax: every P where P(0); (every n where n >= 0; P(n): P(n + 1)): (every x where x >= 0: P(x))
function induct_nat_strong induct
let x y z: Int
define even (x) := exists y: x = 2 * y
define odd (x) := exists y: x = 2 * y + 1
let n m k: Int
fact add_comm n m: n + m = m + n
fact add_assoc n m k: n + (m + k) = (n + m) + k
fact add_zero n: n + 0 = n
fact add_inv n: n + -n = 0
fact add_monotone: every n m k where n <= m: n + k <= m + k
fact mul_comm n m: n * m = m * n
fact mul_assoc n m k: n * (m * k) = (n * m) * k
fact mul_one n: n * 1 = n
fact mul_zero n: n * 0 = 0
fact mul_monotone: every n m k where n <= m; k >= 0: n * k <= m * k
fact le_refl n: n <= n
fact le_trans: every n m k where n <= m; m <= k: n <= k
fact lt_trans: every n m k where n < m; m < k: n < k
fact lt_total: every n m: n < m or n = m or m < n
fact distrib_left n m k: n * (m + k) = n * m + n * k
fact distrib_right n m k: (m + k) * n = m * n + k * n
symbol choose: Array(Int, Bool) -> Int
let P: Array(Int, Bool)
law choose_ax P: P[choose(P)] = (exists n: P[n])
record NatI (val : Int)
let n m k: NatI
method wf (n) := n.val >= 0
object _l 'Lemma'
"

def naturals : String := "
datatype Nat := Z | S(pred : Nat)
S := Nat.S
Z := Nat.Z
one := S(Z)
two := S(one)
let n m k: Nat
let x y z: Nat
define safe_pred (n) := if(n.is_Z, Nat.Z, n.pred)
let a: Int
symbol from_int: Int -> Nat
define from_int (a) := if(a <= 0, Nat.Z, Nat.S(from_int(a - 1)))
symbol to_int: Nat -> Int
define to_int (n) := if(n.is_Z, int(0), 1 + to_int(n.pred))
fact to_int_Z: to_int(Nat.Z) = 0
fact to_int_S n: to_int(S(n)) = 1 + to_int(n)
fact to_int_ge_0 n: to_int(n) >= 0
fresh _n 'n': Nat
fact from_to_int n: from_int(to_int(n)) = n
fresh _a 'a': Int
fact to_from_int a: to_int(from_int(a)) = if(a <= 0, 0, a)
symbol double: Nat -> Nat
define double (n) := if(n.is_Z, Z, S(S(double(n.pred))))
symbol add: Nat, Nat -> Nat
define add (x, y) := if(x.is_Z, y, Nat.S(add(x.pred, y)))
method add on Nat := add
fact add_Z x: add(Nat.Z, x) = x
fact add_S x y: add(Nat.S(x), y) = Nat.S(add(x, y))
fact add_x_zero x: add(x, Z) = x
fresh _pred 'pred': Nat
fact add_Z_r x: add(x, Nat.Z) = x
fact add_s_r x y: add(x, Nat.S(y)) = Nat.S(add(x, y))
fact add_comm x y: add(x, y) = add(y, x)
fresh _x1 'x': Nat
fresh _y1 'y': Nat
fresh _z1 'z': Nat
fact add_assoc x y z: add(x, add(y, z)) = add(add(x, y), z)
object l 'Lemma'
"

def peano : String := "
sort N
let x y z: N
let zero: N
symbol succ: N -> N
symbol add: N, N -> N
symbol mul: N, N -> N
method add on N := add
method mul on N := mul
law succ_not_zero x: succ(x) != zero
law succ_inj: every x y where succ(x) = succ(y): x = y
law add_zero x: add(x, zero) = x
law add_succ x y: add(x, succ(y)) = succ(add(x, y))
law mul_zero x: mul(x, zero) = zero
law mul_succ x y: mul(x, succ(y)) = add(mul(x, y), x)
function induct
"

/-- Arithmetic of successors without induction, where every number is zero or a successor. -/
def robinson : String := "
sort N
let x y z: N
let zero: N
symbol succ: N -> N
symbol add: N, N -> N
symbol mul: N, N -> N
method add on N := add
method mul on N := mul
law succ_not_zero x: succ(x) != zero
law succ_inj: every x y where succ(x) = succ(y): x = y
law zero_or_succ y: y = zero or (exists x: succ(x) = y)
law add_zero x: add(x, zero) = x
law add_succ x y: add(x, succ(y)) = succ(add(x, y))
law mul_zero x: mul(x, zero) = zero
law mul_succ x y: mul(x, succ(y)) = add(mul(x, y), x)
"

/-! ## Texts: algebra -/

def categories : String := "
sort Ob
let a b c d: Ob
sort Arr
let f g h k: Arr
symbol dom: Arr -> Ob
symbol cod: Arr -> Ob
symbol wf: Arr -> Bool
method wf on Arr := wf
symbol comp: Arr, Arr -> Arr
method matmul on Arr := comp
law wf_comp: every f g where cod(g) = dom(f): wf(f @ g)
symbol id: Ob -> Arr
law wf_id a: wf(id(a))
"

def groups : String := "
kind Semigroup
let n m k: Int
member Semigroup(Int): assoc := known(forall n m k: n * (m * k) = (n * m) * k)
kind AbelSemiGroup
member AbelSemiGroup(Int): comm := known(forall n m: n * m = m * n)
kind Monoid
member Monoid(Int): e := int(1); id_left := known(forall n: 1 * n = n); id_right := known(forall n: n * 1 = n)
kind Group
sort G
symbol mul: G, G -> G
method mul on G := mul
let e: G
symbol inv: G -> G
let x y z: G
law mul_assoc x y z: x * (y * z) = (x * y) * z
law id_left x: e * x = x
law inv_left x: inv(x) * x = e
member Semigroup(G): assoc := mul_assoc
fact id_unique1 x: (forall y: y * x = y) => e = x
fact inv_right x: x * inv(x) = e
fact id_right x: x * e = x
member Monoid(G): e := e; id_left := id_left; id_right := id_right
member Group(G): inv := inv; inv_left := inv_left; inv_right := inv_right
fresh _x 'x': G
fact id_unique2: every x where (every y: x * y = y): x = e
fact inv_unique1 x y: y * x = e => y = inv(x)
define abelian () := forall x y: x * y = y * x
object l 'Lemma'
object c 'Calc'
"

def lattices : String := "
uses group = algebra.group
kind SemiLattice
sort L 'AbstractLattice'
let x y z: L
symbol mul: L, L -> L
method mul on L := mul
law assoc x y z: x * (y * z) = (x * y) * z
law comm x y: x * y = y * x
law idem x: x * x = x
member group.Semigroup(L): assoc := assoc
member group.AbelSemiGroup(L): comm := comm
member SemiLattice(L): idem := idem
"

def orderings : String := "
kind PreOrder
let n m k: Int
member PreOrder(Int): refl := known(forall n: n <= n); trans := known(every n m k where n <= m; m <= k: n <= k);
  less_le_not_le := known(every n m: (n < m) = (n <= m and not (m <= n)))
"

def squareMatrices : String := "
sort SqMat
let A B C: SqMat
symbol add: SqMat, SqMat -> SqMat
method add on SqMat := add
law add_assoc A B C: A + (B + C) = (A + B) + C
law add_comm A B: A + B = B + A
let zero: SqMat
law add_zero A: A + zero = A
fact zero_add A: zero + A = A
symbol smul: Real, SqMat -> SqMat
let r s: Real
method mul (A, r) := smul(r, A)
method rmul (A, r) := smul(r, A)
law smul_zero A: 0 * A = zero
law smul_assoc A r s: smul(s, smul(r, A)) = smul(s * r, A)
fact smul_comm A s r: smul(r, smul(s, A)) = smul(s, smul(r, A))
symbol matmul 'mul': SqMat, SqMat -> SqMat
method matmul on SqMat := matmul
law mul_assoc A B C: A @ (B @ C) = (A @ B) @ C
law mul_left_dist A B C: A @ (B + C) = A @ B + A @ C
law mul_right_dist A B C: (A + B) @ C = A @ C + B @ C
let I: SqMat
law id_mul A: I @ A = A
law mul_id A: A @ I = A
symbol trans: SqMat -> SqMat
law trans_idem A: trans(trans(A)) = A
symbol inv: SqMat -> SqMat
symbol is_inv: SqMat -> Bool
law inv_is_inv A: is_inv(A) = is_inv(inv(A))
law inv_left: every A where is_inv(A): inv(A) @ A = I
law inv_right: every A where is_inv(A): A @ inv(A) = I
define is_symm (A) := trans(A) = A
define is_orth (A) := A @ trans(A) = I
define is_idem (A) := A @ A = A
symbol is_diag: SqMat -> Bool
symbol trace: SqMat -> Real
"

def topologies : String := "
uses set_ = set
operation open
kind Topology
datatype Sierp 'Sierpinski' := S0 | S1
object Sierpinski 'Datatype'
SierpSet := set_.Set(Sierp)
let A B: SierpSet
let K: set_.Set(SierpSet)
overload open Sierp.open (A) := A = SierpSet.empty or A = SierpSet.full or A = store(SierpSet.empty, Sierp.S1, yes)
fact Sierp.open_UNIV: open(SierpSet.full)
fact Sierp.open_Int: every A B where open(A); open(B): open(A & B)
fact Sierp.open_Union: every K where (every A where K[A]: open(A)): open(set_.BigUnion(K))
member Topology(Sierp): open_UNIV := Sierp.open_UNIV; open_Int := Sierp.open_Int; open_Union := Sierp.open_Union
"

def vectors : String := "
kind VectorSpace
operation norm2 norm dot
kind Normed
sort V
let u v w: V
symbol add 'vadd': V, V -> V
method add on V := add
law add_comm u v: u + v = v + u
law add_assoc u v w: u + (v + w) = (u + v) + w
let zero: V
law add_zero u: u + zero = u
fact zero_add u: zero + u = u
"

/-! ## Texts: vectors of numbers -/

def realVectors : String := "
uses R = real
uses vector = algebra.vector
norm2 := vector.norm2
dot := vector.dot
record Vec2 (x : Real, y : Real)
let u v: Vec2
overload add add (u, v) := Vec2(u.x + v.x, u.y + v.y)
overload sub sub (u, v) := Vec2(u.x - v.x, u.y - v.y)
overload neg (u) := Vec2(-u.x, -u.y)
Vec2.vzero := Vec2(0, 0)
overload dot Vec2.dot (u, v) := u.x * v.x + u.y * v.y
overload norm2 Vec2.norm2 (u) := dot(u, u)
fact Vec2.norm_pos u: norm2(u) >= 0
fact Vec2.norm_zero u: (norm2(u) = 0) = (u = Vec2.vzero)
define dist (u, v) := R.sqrt(norm2(u - v))
function FinSort Vec0 Vec
Vec3 := Vec(3)
let u v: Vec3
overload norm2 (u) := u.x0 * u.x0 + u.x1 * u.x1 + u.x2 * u.x2
define cross (u, v) := Vec3(u.x1 * v.x2 - u.x2 * v.x1, u.x2 * v.x0 - u.x0 * v.x2, u.x0 * v.x1 - u.x1 * v.x0)
fact cross_antisym u v: cross(u, v) = -cross(v, u)
ihat := Vec3(1, 0, 0)
jhat := Vec3(0, 1, 0)
khat := Vec3(0, 0, 1)
"

def functionVectorFacts : String := "
let i j k: Fin
let u v w: S
let a b: Real
overload add S.add (u, v) := S(fun i: u[i] + v[i])
overload sub S.sub (u, v) := S(fun i: u[i] - v[i])
overload neg S.neg (u) := S(fun i: -u[i])
overload dot S.dot (u, v) := products(u, v)
fact S.add_comm u v: u + v = v + u
fact S.add_assoc u v w: (u + v) + w = u + (v + w)
S.zero := S(K(Fin, real(0)))
fact S.add_zero u: u + S.zero = u
define S.smul (a, u) := S(fun i: a * u[i])
smul := S.smul
fact S.smul_one u: smul(1, u) = u
fact S.smul_zero u: smul(0, u) = S.zero
overload norm2 S.norm2 (u) := squares(u)
norm2_ := S.norm2
fact S.norm_pos u: norm2_(u) >= 0
"

def planeGeometry : String := "
uses vec = real.vec
uses set_ = set
Point2D := vec.Vec2
let p q a b c: Point2D
let r: Real
define circle (c, r) := fun p: vec.norm2(p - c) = r * r
Shape := set_.Set(Point2D)
let A B C: Shape
define is_circle (A) := exists c r: circle(c, r) = A
"

def shapedArrays : String := "
uses seq = seq
record NDArray (shape : seq.Seq(Int), data : Array(Int, Real))
let n m k: Int
define zeros 'zero' (n) := NDArray(seq.Unit(n), K(Int, real(0)))
define ones (n) := NDArray(seq.Unit(n), K(Int, real(1)))
let u v w: NDArray
symbol add_undef: NDArray, NDArray -> NDArray
overload add add (u, v) := if(u.shape = v.shape, NDArray(u.shape, (fun k: u.data[k] + v.data[k])), add_undef(u, v))
fact add_comm: every u v where u.shape = v.shape: add(u, v) = add(v, u)
"

end SortedLogic.Theory.Text
