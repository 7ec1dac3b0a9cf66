import SortedLogic.Proofs.Exploration

/-!
# Bytes in memory

A memory has one byte for each space and address (`View`), where bit patterns and arrays mean what they should (`Bitwise`). A
write changes the bytes at its own addresses only (`View.store`), and a read gives the number that has the bytes as digits
(`View.read`), byte by byte what was written last (`writes_exact`).
-/

namespace SortedLogic
open List
open Checked (bind_eq_ok mapM_eq_ok)
open SortedLogic.Frame (eval_app)
universe u
variable {U : Type u} {F : Frame U} {ρ : List U} {w n k v : Nat} {a b t d : Term} {name : String} {p q : Bytes.Address}
  {x y i : BitVec w}

abbrev Srt.bytes (w : Nat) : Srt := .array [.bitvec w] (.bitvec 8)

namespace Symbol

def pattern (x : BitVec w) : Symbol := ⟨"bv", [], .bitvec w, .bits x.toNat⟩

def onBits (name : String) (w : Nat) : Symbol := builtin name [.bitvec w, .bitvec w] (.bitvec w)

def store (w : Nat) : Symbol := builtin "store" [.bytes w, .bitvec w, .bitvec 8] (.bytes w)

end Symbol

namespace Frame

/-! ## Bit patterns -/

def pattern (F : Frame U) (x : BitVec w) : U := F.fn (.pattern x) []

def byteAt (F : Frame U) (u : U) (i : BitVec w) : U := F.fn (.select [.bitvec w] (.bitvec 8)) [u, F.pattern i]

/-- Bit patterns and arrays of bytes mean what they should. -/
structure Bitwise (F : Frame U) : Prop where
  exists_pattern : ∀ w, ∀ u ∈ F.carrier (.bitvec w), ∃ x : BitVec w, u = F.pattern x
  injective : ∀ w (x y : BitVec w), F.pattern x = F.pattern y → x = y
  add : ∀ w (x y : BitVec w), F.fn (.onBits "bvadd" w) [F.pattern x, F.pattern y] = F.pattern (x + y)
  sub : ∀ w (x y : BitVec w), F.fn (.onBits "bvsub" w) [F.pattern x, F.pattern y] = F.pattern (x - y)
  and : ∀ w (x y : BitVec w), F.fn (.onBits "bvand" w) [F.pattern x, F.pattern y] = F.pattern (x &&& y)
  ashr : ∀ w (x y : BitVec w), F.fn (.onBits "bvashr" w) [F.pattern x, F.pattern y] = F.pattern (x.sshiftRight' y)
  extract : ∀ w i j (x : BitVec w),
    F.fn (.builtin "extract" [.bitvec w] (.bitvec (i - j + 1)) [i, j]) [F.pattern x] = F.pattern (x.extractLsb i j)
  zeroExtend : ∀ w n (x : BitVec w),
    F.fn (.builtin "zero_extend" [.bitvec w] (.bitvec (w + n)) [n]) [F.pattern x] = F.pattern (x.setWidth (w + n))
  concat : ∀ w v (x : BitVec w) (y : BitVec v),
    F.fn (.builtin "concat" [.bitvec w, .bitvec v] (.bitvec (w + v))) [F.pattern x, F.pattern y] = F.pattern (x ++ y)
  store : ∀ w, ∀ u ∈ F.carrier (.bytes w), ∀ (i j : BitVec w) (y : BitVec 8),
    F.byteAt (F.fn (.store w) [u, F.pattern i, F.pattern y]) j = if j = i then F.pattern y else F.byteAt u j

structure Carries (F : Frame U) (ρ : List U) (t : Term) (x : BitVec w) : Prop where
  sort : t.sort = .bitvec w
  value : F.eval ρ t = F.pattern x

/-- The computation makes a term for the pattern. -/
def Makes (F : Frame U) (ρ : List U) (c : Checked Term) (x : BitVec w) : Prop := ∃ t, c = .ok t ∧ F.Carries ρ t x

theorem pattern_mem (F : Frame U) (x : BitVec w) : F.pattern x ∈ F.carrier (.bitvec w) := F.fn_mem (.pattern x) [] .nil

theorem carries_bits (F : Frame U) (ρ : List U) (k : Int) (w : Nat) : F.Carries ρ (.bits k w) (BitVec.ofInt w k) :=
  ⟨rfl, by rw [Term.bits]; rfl⟩

theorem makes_word (F : Frame U) (ρ : List U) (pos : 0 < w) (k : Int) : F.Makes ρ (Bits.word k w) (BitVec.ofInt w k) :=
  ⟨_, if_neg (by omega), F.carries_bits ρ k w⟩

theorem Makes.bind {c : Checked Term} {g : Term → Checked Term} {z : BitVec v} (made : F.Makes ρ c x)
    (rest : ∀ t, F.Carries ρ t x → F.Makes ρ (g t) z) : F.Makes ρ (c >>= g) z := by
  obtain ⟨t, rfl, carries⟩ := made
  exact rest t carries

namespace Carries
variable {f : BitVec w → BitVec w → BitVec w}
  (law : ∀ x y : BitVec w, F.fn (.onBits name w) [F.pattern x, F.pattern y] = F.pattern (f x y))
include law

theorem binary (ha : F.Carries ρ a x) (hb : F.Carries ρ b y) : F.Makes ρ (Bits.binary name a b) (f x y) := by
  refine ⟨.app (.onBits name w) [a, b], ?_, rfl, ?_⟩
  · rw [Bits.binary, ha.sort, hb.sort]
    exact if_pos rfl
  · rw [eval_app, map_cons, map_singleton, ha.value, hb.value, law]

theorem withNumber (pos : 0 < w) (ha : F.Carries ρ a x) (k : Int) :
    F.Makes ρ (Bits.withNumber (Bits.binary name) a k) (f x (BitVec.ofInt w k)) := by
  rw [Bits.withNumber, Bits.widthOf, Bits.width?, ha.sort]
  exact (F.makes_word ρ pos k).bind fun t ht => binary law ha ht

omit law in
theorem extract (bitwise : F.Bitwise) (ha : F.Carries ρ a x) {i j : Nat} (order : j ≤ i) (mem : i < w)
    (width : i - j + 1 = v) : F.Makes ρ (Builtin.extract i j a) (BitVec.ofNat v (x.toNat >>> j)) := by
  subst width
  refine ⟨.app (.builtin "extract" [.bitvec w] (.bitvec (i - j + 1)) [i, j]) [a], ?_, rfl, ?_⟩
  · rw [Builtin.extract, ha.sort]
    exact if_pos ⟨order, mem⟩
  · rw [eval_app, map_singleton, ha.value, bitwise.extract]
    rfl

omit law in
theorem zeroExtend (bitwise : F.Bitwise) (ha : F.Carries ρ a x) (width : w + n = v) :
    F.Makes ρ (Bits.zeroExtend n a) (x.setWidth v) := by
  subst width
  refine ⟨.app (.builtin "zero_extend" [.bitvec w] (.bitvec (w + n)) [n]) [a], ?_, rfl, ?_⟩
  · rw [Bits.zeroExtend, ha.sort]
  · rw [eval_app, map_singleton, ha.value, bitwise.zeroExtend]

end Carries

/-! ## Bytes in arrays -/

structure Stores (F : Frame U) (ρ : List U) (a : Term) (g : BitVec w → BitVec 8) : Prop where
  sort : a.sort = .bytes w
  mem : F.eval ρ a ∈ F.carrier (.bytes w)
  byte : ∀ i, F.byteAt (F.eval ρ a) i = F.pattern (g i)

/-- The address is that number, or stands for it. -/
inductive Points (F : Frame U) (ρ : List U) : Bytes.Address → BitVec w → Prop
  | term {t : Term} {x : BitVec w} : F.Carries ρ t x → Points F ρ (.term t) x
  | number (k : Int) : Points F ρ (.number k) (BitVec.ofInt w k)

variable (bitwise : F.Bitwise) {g : BitVec w → BitVec 8}
include bitwise

theorem exists_stores (sort : a.sort = .bytes w) (mem : F.eval ρ a ∈ F.carrier (.bytes w)) :
    ∃ g : BitVec w → BitVec 8, F.Stores ρ a g := by
  have fits (i : BitVec w) : F.Fits [F.eval ρ a, F.pattern i] [.bytes w, .bitvec w] := .cons mem (.cons (F.pattern_mem i) .nil)
  choose g byte using fun i : BitVec w => bitwise.exists_pattern 8 (F.byteAt (F.eval ρ a) i)
    (F.fn_mem (.select [.bitvec w] (.bitvec 8)) [_, _] (fits i))
  exact ⟨g, sort, mem, byte⟩

theorem Points.plus (hp : F.Points ρ p x) (pos : 0 < w) (k : Int) : ∃ q, p.plus k = .ok q ∧
    F.Points ρ q (x + BitVec.ofInt w k) := by
  cases hp with
  | term ht =>
    obtain ⟨t, made, carries⟩ := ht.withNumber (bitwise.add w) pos k
    exact ⟨.term t, by rw [Bytes.Address.plus, Bytes.shift, ht.sort, made]; rfl, .term carries⟩
  | number m => exact ⟨.number (m + k), rfl, BitVec.ofInt_add m k ▸ .number (m + k)⟩

theorem Points.minus (hp : F.Points ρ p x) (pos : 0 < w) (k : Int) : ∃ q, p.minus k = .ok q ∧
    F.Points ρ q (x - BitVec.ofInt w k) := by
  cases hp with
  | term ht =>
    obtain ⟨t, made, carries⟩ := ht.withNumber (bitwise.sub w) pos k
    exact ⟨.term t, by rw [Bytes.Address.minus, Bytes.shift, ht.sort, made]; rfl, .term carries⟩
  | number m =>
    refine ⟨.number (m - k), rfl, ?_⟩
    rw [sub_eq_add_neg (BitVec.ofInt w m), ← BitVec.ofInt_neg, ← BitVec.ofInt_add]
    exact .number _

omit bitwise in
theorem Points.index (hp : F.Points ρ p x) (pos : 0 < w) (ha : F.Stores ρ a g) : F.Makes ρ (p.index a) x := by
  cases hp with
  | term ht => exact ⟨_, rfl, ht⟩
  | number k =>
    rw [Bytes.Address.index, Bytes.places, ha.sort]
    exact F.makes_word ρ pos k

namespace Stores

omit bitwise in
theorem congr (ha : F.Stores ρ a g) (sort : b.sort = .bytes w) (eq : F.eval ρ b = F.eval ρ a) :
    F.Stores ρ b g := ⟨sort, eq ▸ ha.mem, eq ▸ ha.byte⟩

omit bitwise in
theorem readAt (ha : F.Stores ρ a g) (hp : F.Points ρ p x) (pos : 0 < w) : F.Makes ρ (Bytes.readAt a p) (g x) := by
  refine (hp.index pos ha).bind fun t ht => ⟨.app (.select [.bitvec w] (.bitvec 8)) [a, t], ?_, rfl, ?_⟩
  · have cast : Term.castAll [.bitvec w] [t] = .ok [t] := by
      rw [Term.castAll, Term.castTo_of_sort ht.sort]
      rfl
    rw [Term.select, ha.sort]
    show (Term.castAll [.bitvec w] [t] >>= fun is => Term.op _ (a :: is)) = _
    rw [cast]
    exact if_pos (by simp [ha.sort, ht.sort, Symbol.builtin])
  · rw [eval_app, map_cons, map_singleton, ht.value]
    exact ha.byte x

theorem store (ha : F.Stores ρ a g) (ht : F.Carries ρ t i) {y : BitVec 8} (hd : F.Carries ρ d y) :
    ∃ a', Bytes.store a t d = .ok a' ∧ F.Stores ρ a' (Function.update g i y) := by
  have value : F.eval ρ (.app (.store w) [a, t, d]) = F.fn (.store w) [F.eval ρ a, F.pattern i, F.pattern y] := by
    rw [eval_app, map_cons, map_cons, map_singleton, ht.value, hd.value]
  have fits : F.Fits [F.eval ρ a, F.pattern i, F.pattern y] [.bytes w, .bitvec w, .bitvec 8] :=
    .cons ha.mem (.cons (F.pattern_mem i) (.cons (F.pattern_mem y) .nil))
  refine ⟨.app (.store w) [a, t, d], ?_, rfl, value ▸ F.fn_mem (.store w) [_, _, _] fits, fun j => ?_⟩
  · rw [Bytes.store, ha.sort]
    exact if_pos (by simp [ht.sort, hd.sort])
  · rw [value, bitwise.store w _ ha.mem, ha.byte, Function.update_apply, apply_ite F.pattern]

theorem write (ha : F.Stores ρ a g) (hp : F.Points ρ p x) (pos : 0 < w) {y : BitVec (8 * n)} (hd : F.Carries ρ d y)
    (room : n ≤ 2 ^ w) : ∃ a', Bytes.write a p d = .ok a' ∧
      F.Stores ρ a' fun i => if (i - x).toNat < n then BitVec.ofNat 8 (y.toNat / 256 ^ (i - x).toNat) else g i := by
  have steps : ∀ k ≤ n, ∃ a', (range k).foldlM (fun a i => do
      Bytes.store a (← (← p.plus i).index a) (← Bytes.byteOf .lastFirst d i)) a = .ok a' ∧
        F.Stores ρ a' fun i => if (i - x).toNat < k then BitVec.ofNat 8 (y.toNat / 256 ^ (i - x).toNat) else g i := by
    intro k
    induction k with
    | zero => exact fun _ => ⟨a, rfl, by simpa using ha⟩
    | succ k ih =>
      intro le
      obtain ⟨a', ok, stores⟩ := ih (by omega)
      obtain ⟨q, plus, hq⟩ := hp.plus bitwise pos k
      obtain ⟨t, index, ht⟩ := hq.index pos stores
      obtain ⟨e, byte, he⟩ := hd.extract bitwise (i := 8 * k + 7) (j := 8 * k) (v := 8) (by omega) (by omega) (by omega)
      obtain ⟨a'', stored, stores'⟩ := stores.store bitwise ht he
      refine ⟨a'', ?_, ?_⟩
      · rw [range_succ, foldlM_append]
        refine bind_eq_ok.2 ⟨a', ok, ?_⟩
        refine bind_eq_ok.2 ⟨a'', ?_, rfl⟩
        exact bind_eq_ok.2 ⟨q, plus, bind_eq_ok.2 ⟨t, index, bind_eq_ok.2 ⟨e, byte, stored⟩⟩⟩
      convert stores' using 1
      funext i
      have here : i = x + BitVec.ofInt w k ↔ (i - x).toNat = k := by
        rw [BitVec.ofInt_natCast, ← sub_eq_iff_eq_add', ← BitVec.toNat_inj, BitVec.toNat_ofNat, Nat.mod_eq_of_lt (by omega)]
      rw [Function.update_apply]
      by_cases new : (i - x).toNat = k
      · rw [if_pos (here.2 new), new, Nat.shiftRight_eq_div_pow, pow_mul]
        norm_num
      · rw [if_neg (here.not.2 new)]
        exact if_congr (by omega) rfl rfl
  obtain ⟨a', ok, stores⟩ := steps n le_rfl
  refine ⟨a', ?_, stores⟩
  rw [Bytes.write, Bits.widthOf, Bits.width?, hd.sort]
  refine (if_neg (by omega)).trans ?_
  rwa [show 8 * n / 8 = n by omega]

end Stores

theorem Carries.concat {y : BitVec 8} (ha : F.Carries ρ a (BitVec.ofNat w n)) (hb : F.Carries ρ b y) :
    F.Makes ρ (match Builtin.symbol? "concat" [a.sort, b.sort] with
      | some f => Term.op f [a, b]
      | none => .error .illFormed) (BitVec.ofNat (w + 8) (y.toNat + 256 * n)) := by
  rw [ha.sort, hb.sort]
  refine ⟨.app (.builtin "concat" [.bitvec w, .bitvec 8] (.bitvec (w + 8))) [a, b], ?_, rfl, ?_⟩
  · exact if_pos (by simp [ha.sort, hb.sort, Symbol.builtin])
  rw [eval_app, map_cons, map_singleton, ha.value, hb.value, bitwise.concat]
  refine congrArg F.pattern (BitVec.eq_of_toNat_eq ?_)
  have lt : y.toNat < 256 := y.isLt
  rw [BitVec.toNat_append, BitVec.toNat_ofNat, BitVec.toNat_ofNat, ← Nat.shiftLeft_add_eq_or_of_lt y.isLt,
    pow_add, mul_comm (2 ^ w), show 2 ^ 8 = 256 from rfl, Nat.mod_mul, Nat.add_mul_div_left _ _ (by decide),
    Nat.div_eq_of_lt lt, Nat.zero_add]
  omega

theorem foldlM_concat {ts : List Term} {ys : List (BitVec 8)} (each : Forall₂ (F.Carries ρ) ts ys) :
    ∀ {w n : Nat} {a : Term}, F.Carries ρ a (BitVec.ofNat w n) →
    F.Makes ρ (ts.foldlM (fun a b => match Builtin.symbol? "concat" [a.sort, b.sort] with
      | some f => Term.op f [a, b]
      | none => .error .illFormed) a)
      (BitVec.ofNat (w + 8 * ys.length) (ys.foldl (fun n y => y.toNat + 256 * n) n)) := by
  induction each with
  | nil => exact fun ha => ⟨_, rfl, ha⟩
  | @cons _ y _ ys ht _ ih =>
    intro w n a ha
    refine (ha.concat bitwise ht).bind fun t' joined => ?_
    rw [show w + 8 * (y :: ys).length = w + 8 + 8 * ys.length by rw [length_cons]; omega]
    exact ih joined

theorem concatAll_makes {ts : List Term} {ys : List (BitVec 8)} (each : Forall₂ (F.Carries ρ) ts ys) (some : ys ≠ []) :
    F.Makes ρ (Builtin.concatAll ts) (BitVec.ofNat (8 * ys.length) (Nat.ofDigits 256 (ys.map BitVec.toNat).reverse)) := by
  cases each with
  | nil => exact absurd rfl some
  | @cons t y _ _ _ rest =>
    have first : F.Carries ρ t (BitVec.ofNat 8 y.toNat) := by rwa [BitVec.ofNat_toNat]
    have joined := foldlM_concat bitwise rest first
    rw [Nat.ofDigits_eq_foldr, foldr_reverse, foldl_map, length_cons, Nat.mul_add, add_comm]
    exact joined

theorem Stores.read (ha : F.Stores ρ a g) (hp : F.Points ρ p x) (pos : 0 < w) (some : 0 < n) : F.Makes ρ (Bytes.read a p n)
      (BitVec.ofNat (8 * n) (Nat.ofDigits 256 ((range n).map fun k => (g (x + BitVec.ofNat w k)).toNat))) := by
  have byte (i : Nat) (lt : i < n) : ∃ t, (do Bytes.readAt a (← Bytes.placeOf .lastFirst p n i)) = .ok t ∧
      F.Carries ρ t (g (x + BitVec.ofNat w (n - 1 - i))) := by
    obtain ⟨q, plus, hq⟩ := hp.plus bitwise pos n
    obtain ⟨r, minus, hr⟩ := hq.minus bitwise pos i
    obtain ⟨s, last, hs⟩ := hr.minus bitwise pos 1
    have place : Bytes.placeOf .lastFirst p n i = .ok s := bind_eq_ok.2 ⟨q, plus, bind_eq_ok.2 ⟨r, minus, last⟩⟩
    have address : x + BitVec.ofInt w n - BitVec.ofInt w i - BitVec.ofInt w 1 = x + BitVec.ofNat w (n - 1 - i) := by
      have count : n = ((n - 1 - i : Nat) : Int) + i + 1 := by omega
      rw [count, BitVec.ofInt_add, BitVec.ofInt_add, BitVec.ofInt_natCast]
      ring
    rw [place, ← address]
    exact ha.readAt hs pos
  by_cases one : n = 1
  · subst one
    rw [Bytes.read]
    simpa using ha.readAt hp pos
  rw [Bytes.read, if_neg (by omega), if_neg one]
  choose! bytes made carries using byte
  have all : (range n).mapM (fun i => do Bytes.readAt a (← Bytes.placeOf .lastFirst p n i)) = .ok ((range n).map bytes) :=
    mapM_eq_ok.2 (forall₂_map_right_iff.2 (forall₂_same.2 fun i mem => made i (mem_range.1 mem)))
  rw [all]
  have each : Forall₂ (F.Carries ρ) ((range n).map bytes) ((range n).map fun i => g (x + BitVec.ofNat w (n - 1 - i))) := by
    rw [forall₂_map_left_iff, forall₂_map_right_iff, forall₂_same]
    exact fun i mem => carries i (mem_range.1 mem)
  have joined := concatAll_makes bitwise each (mt map_eq_nil_iff.1 (mt range_eq_nil.1 (by omega)))
  have order : (range n).map (fun k => (g (x + BitVec.ofNat w k)).toNat) =
      (((range n).map fun i => g (x + BitVec.ofNat w (n - 1 - i))).map BitVec.toNat).reverse := by
    refine ext_getElem (by simp) fun k lt _ => ?_
    rw [length_map, length_range] at lt
    simp [show n - 1 - (n - 1 - k) = k by omega]
  rw [length_map, length_range, ← order] at joined
  exact joined

omit bitwise in
theorem ofDigits_bytes (k n : Nat) :
    Nat.ofDigits 256 ((range n).map fun i => (BitVec.ofNat 8 (k / 256 ^ i)).toNat) = k % 256 ^ n := by
  induction n with
  | zero => exact (Nat.mod_one k).symm
  | succ _ ih =>
    rw [range_succ, map_append, Nat.ofDigits_append, ih, length_map, length_range, Nat.mod_pow_succ, map_singleton,
      Nat.ofDigits_singleton, BitVec.toNat_ofNat]

/-- A pattern that is written is read again, and the bytes at other addresses stay. With the first byte first nothing can be
written. -/
theorem write_then_read (ha : F.Stores ρ a g) (hp : F.Points ρ p x) (pos : 0 < w) {y : BitVec (8 * n)} (hd : F.Carries ρ d y)
    (some : 0 < n) (room : n ≤ 2 ^ w) : (∃ a', Bytes.write a p d = .ok a' ∧ F.Makes ρ (Bytes.read a' p n) y ∧
      ∀ i : BitVec w, n ≤ (i - x).toNat → F.byteAt (F.eval ρ a') i = F.byteAt (F.eval ρ a) i) ∧
    Bytes.write a p d .firstFirst = .error .illFormed := by
  obtain ⟨a', done, stores⟩ := ha.write bitwise hp pos hd room
  refine ⟨⟨a', done, ?_, fun i outside => ?_⟩, ?_⟩
  · have digits : (range n).map (fun k => (if (x + BitVec.ofNat w k - x).toNat < n then
        BitVec.ofNat 8 (y.toNat / 256 ^ (x + BitVec.ofNat w k - x).toNat) else g (x + BitVec.ofNat w k)).toNat) =
        (range n).map fun k => (BitVec.ofNat 8 (y.toNat / 256 ^ k)).toNat := by
      refine map_congr_left fun k mem => ?_
      have lt := mem_range.1 mem
      rw [add_sub_cancel_left, BitVec.toNat_ofNat, Nat.mod_eq_of_lt (by omega), if_pos lt]
    have read := stores.read bitwise hp pos some
    rwa [digits, ofDigits_bytes, Nat.mod_eq_of_lt (by simpa [pow_mul] using y.isLt), BitVec.ofNat_toNat,
      BitVec.setWidth_eq] at read
  · rw [stores.byte, ha.byte, if_neg (Nat.not_lt.2 outside)]
  · obtain ⟨q, plus, hq⟩ := hp.plus bitwise pos (0 : Nat)
    obtain ⟨t, index, -⟩ := hq.index pos ha
    obtain ⟨n, rfl⟩ := Nat.exists_eq_succ_of_ne_zero some.ne'
    rw [Bytes.write, Bits.widthOf, Bits.width?, hd.sort]
    refine (if_neg (by omega)).trans ?_
    rw [show 8 * (n + 1) / 8 = n + 1 by omega, range_succ_eq_map, foldlM_cons, plus]
    have refused : Bytes.byteOf .firstFirst d 0 = .error .illFormed := by
      rw [Bytes.byteOf, Builtin.extract, hd.sort]
      rfl
    simp [Bind.bind, Except.bind, index, refused]

end Frame

/-! ## The memory of the machine -/

namespace Machine
open Memory (accessor pack)

abbrev State := String → BitVec 64 → BitVec 8

/-- Bytes that are written to a space from an address on, those of a number from its last one on. -/
structure Change where
  space : String
  start : BitVec 64
  size : Nat
  value : Nat

namespace Change
variable (c : Change)

def covers (name : String) (i : BitVec 64) : Bool := name = c.space && (i - c.start).toNat < c.size

def byte (i : BitVec 64) : BitVec 8 := BitVec.ofNat 8 (c.value / 256 ^ (i - c.start).toNat)

end Change

namespace State
variable (S : State)

def change (c : Change) : State := fun name i => if c.covers name i then c.byte i else S name i

def number (name : String) (start : BitVec 64) (size : Nat) : Nat :=
  Nat.ofDigits 256 ((range size).map fun k => (S name (start + BitVec.ofNat 64 k)).toNat)

def value (p : Place) : Nat :=
  if p.isConst then (BitVec.ofInt (8 * p.size) p.offset).toNat else S.number p.space (BitVec.ofInt 64 p.offset) p.size

end State

/-- The memory has the bytes of the state. -/
structure View (F : Frame U) (ρ : List U) (m : Term) (S : State) : Prop where
  stands : Stands F ρ m (F.eval ρ m)
  space : ∀ name ∈ spaceNames, ∃ a, Memory.space m name = .ok a ∧ F.Stores ρ a (S name)

variable {m : Term} {μ : U} {S : State} (bitwise : F.Bitwise) (lawful : Lawful F) (view : View F ρ m S)

theorem space_eq_ok {i : Nat} (hit : spaceNames.findIdx? (· = name) = some i) :
    Memory.space m name = .ok (.app (accessor name i) [m]) := by rw [Memory.space, hit]

include bitwise

theorem Stands.exists_view (stands : Stands F ρ m μ) : ∃ S, View F ρ m S := by
  have each (name : String) : ∃ g : BitVec 64 → BitVec 8, ∀ a, Memory.space m name = .ok a → F.Stores ρ a g := by
    cases hit : spaceNames.findIdx? (· = name) with
    | none => exact ⟨0, fun a here => by rw [Memory.space, hit] at here; cases here⟩
    | some i =>
      have mem : F.eval ρ (.app (accessor name i) [m]) ∈ F.carrier spaceSort := by
        rw [eval_app, map_singleton, stands.value]
        exact accessor_mem stands.mem name i
      obtain ⟨g, stores⟩ := Frame.exists_stores bitwise rfl mem
      exact ⟨g, fun a here => Except.ok.inj ((space_eq_ok hit).symm.trans here) ▸ stores⟩
  choose S stores using each
  refine ⟨S, stands.value.symm ▸ stands, fun name known => ?_⟩
  obtain ⟨i, hit⟩ : ∃ i, spaceNames.findIdx? (· = name) = some i := by
    simp only [spaceNames, mem_cons, not_mem_nil, or_false] at known
    obtain rfl | rfl | rfl := known <;> exact ⟨_, rfl⟩
  exact ⟨_, space_eq_ok hit, stores name _ (space_eq_ok hit)⟩

include view

theorem View.read {q : Place} (known : q.isConst ∨ q.space ∈ spaceNames) (some : 0 < q.size) :
    F.Makes ρ (Memory.read m q) (BitVec.ofNat (8 * q.size) (S.value q)) := by
  unfold Memory.read State.value
  by_cases const : q.isConst
  · rw [if_pos const, if_pos const, BitVec.ofNat_toNat, BitVec.setWidth_eq]
    exact F.makes_word ρ (by omega) _
  · obtain ⟨a, here, stores⟩ := view.space _ (known.resolve_left const)
    rw [if_neg const, if_neg const, here]
    exact stores.read bitwise (.term (F.carries_bits ρ _ _)) (by decide) some

include lawful

theorem View.store {x : BitVec 64} {y : BitVec (8 * n)} (known : name ∈ spaceNames) (hp : F.Points ρ p x)
    (hd : F.Carries ρ d y) (room : n ≤ 2 ^ 64) :
    ∃ m', (do let a ← Bytes.write (← Memory.space m name) p d; return Memory.replace m name a) = .ok m' ∧
      View F ρ m' (S.change ⟨name, x, n, y.toNat⟩) := by
  obtain ⟨a, here, stores⟩ := view.space name known
  obtain ⟨a', written, stores'⟩ := stores.write bitwise hp (by decide) hd room
  have new := view.stands.replace lawful name stores'.sort stores'.mem
  rw [← new.value] at new
  refine ⟨_, bind_eq_ok.2 ⟨a, here, bind_eq_ok.2 ⟨a', written, rfl⟩⟩, new, fun other known' => ?_⟩
  -- the array of the space is the new one, and the others are those of the old memory
  have one {i : Nat} {t : Term} (hit : spaceNames.findIdx? (· = other) = some i)
      (old : F.eval ρ t = F.fn (accessor other i) [F.eval ρ m])
      (now : F.eval ρ (if other = name then a' else t) = F.fn (accessor other i) [F.eval ρ (Memory.replace m name a')]) :
      ∃ b, Memory.space (Memory.replace m name a') other = .ok b ∧ F.Stores ρ b (S.change ⟨name, x, n, y.toNat⟩ other) := by
    have value : F.eval ρ (.app (accessor other i) [Memory.replace m name a']) = F.eval ρ (if other = name then a' else t) := by
      rw [eval_app, map_singleton, now]
    refine ⟨_, space_eq_ok hit, ?_⟩
    by_cases eq : other = name
    · rw [if_pos eq] at value
      convert stores'.congr rfl value using 2
      simp [State.change, Change.covers, Change.byte, eq]
    obtain ⟨b, here', kept⟩ := view.space other known'
    obtain rfl := Except.ok.inj (here'.symm.trans (space_eq_ok hit))
    rw [if_neg eq, old] at value
    have untouched : S.change ⟨name, x, n, y.toNat⟩ other = S other := funext fun i => by simp [State.change, Change.covers, eq]
    exact untouched ▸ kept.congr rfl (value.trans (by rw [eval_app, map_singleton]))
  have old := view.stands.spaces
  have now := new.spaces
  have args : Memory.spaces (Memory.replace m name a') =
    (spaceNames.zip (Memory.spaces m)).map fun q => if q.1 = name then a' else q.2 := rfl
  rw [args] at now
  generalize Memory.spaces m = as at old now
  rcases old with _ | ⟨ram, _ | ⟨register, _ | ⟨unique, _ | _⟩⟩⟩
  rcases now with _ | ⟨ram', _ | ⟨register', _ | ⟨unique', _ | _⟩⟩⟩
  simp only [spaceNames, mem_cons, not_mem_nil, or_false] at known'
  obtain rfl | rfl | rfl := known'
  · exact one rfl ram.2 ram'.2
  · exact one rfl register.2 register'.2
  · exact one rfl unique.2 unique'.2

/-! ## Runs of writes -/

omit bitwise lawful view

inductive Write where
  | place (q : Place) (value : Term)
  | ram (start : Bytes.Address) (value : Term)

def Write.run (m : Term) : Write → Checked Term
  | .place q v => Memory.write m q v
  | .ram start v => Memory.writeRam m start v

inductive Write.Means (F : Frame U) (ρ : List U) : Write → Change → Prop
  | place {q : Place} {v : Term} {k : Nat} {z : BitVec (8 * k)} : q.space ∈ spaceNames → F.Carries ρ v z → k < 2 ^ 64 →
      Means F ρ (.place q v) ⟨q.space, BitVec.ofInt 64 q.offset, k, z.toNat⟩
  | ram {start : Bytes.Address} {v : Term} {k : Nat} {x : BitVec 64} {z : BitVec (8 * k)} : F.Points ρ start x →
      F.Carries ρ v z → k < 2 ^ 64 → Means F ρ (.ram start v) ⟨"ram", x, k, z.toNat⟩

/-- The byte that was written last, or that was there if none was written. -/
def State.after (S : State) (cs : List Change) : State := fun name i =>
  match cs.reverse.find? (·.covers name i) with
  | some c => c.byte i
  | none => S name i

theorem State.after_cons (S : State) (c : Change) (cs : List Change) : S.after (c :: cs) = (S.change c).after cs := by
  funext name i
  rw [State.after, State.after, reverse_cons, find?_append]
  cases cs.reverse.find? (·.covers name i) with
  | some => rfl
  | none => by_cases covered : c.covers name i <;> simp [State.change, covered]

include bitwise lawful

theorem View.run {e : Write} {c : Change} (view : View F ρ m S) (means : e.Means F ρ c) :
    ∃ m', e.run m = .ok m' ∧ View F ρ m' (S.change c) := by
  cases means with
  | @place q _ _ _ known hd room =>
    have other : ¬ q.isConst = true := by
      intro const
      rw [of_decide_eq_true const] at known
      exact absurd known (by decide)
    obtain ⟨m', ok, view'⟩ := view.store bitwise lawful known (.term (F.carries_bits ρ q.offset 64)) hd room.le
    exact ⟨m', (if_neg other).trans ok, view'⟩
  | ram hp hd room => exact view.store bitwise lawful (by decide) hp hd room.le

/-- After any writes, a read gives the bytes that were written last at its addresses, in its own space. -/
theorem writes_exact {ws : List Write} {cs : List Change} (stands : Stands F ρ m μ) (each : Forall₂ (Write.Means F ρ) ws cs) :
    ∃ S m', View F ρ m S ∧ ws.foldlM Write.run m = .ok m' ∧ View F ρ m' (S.after cs) ∧
      (∀ q : Place, q.isConst ∨ q.space ∈ spaceNames → 0 < q.size →
        F.Makes ρ (Memory.read m' q) (BitVec.ofNat (8 * q.size) ((S.after cs).value q))) ∧
      ∀ (p : Bytes.Address) (x : BitVec 64) (n : Nat), F.Points ρ p x → 0 < n →
        F.Makes ρ (Memory.readRam m' p n) (BitVec.ofNat (8 * n) ((S.after cs).number "ram" x n)) := by
  have run {S : State} (view : View F ρ m S) : ∃ m', ws.foldlM Write.run m = .ok m' ∧ View F ρ m' (S.after cs) := by
    clear stands
    induction each generalizing m S with
    | nil => exact ⟨m, rfl, view⟩
    | cons head _ ih =>
      obtain ⟨m', done, view'⟩ := view.run bitwise lawful head
      obtain ⟨m'', rest, view''⟩ := ih view'
      rw [← State.after_cons] at view''
      exact ⟨m'', by rw [foldlM_cons]; exact bind_eq_ok.2 ⟨m', done, rest⟩, view''⟩
  obtain ⟨S, view⟩ := stands.exists_view bitwise
  obtain ⟨m', done, view'⟩ := run view
  refine ⟨S, m', view, done, view', fun q known some => view'.read bitwise known some, fun p x n hp some => ?_⟩
  obtain ⟨a, here, stores⟩ := view'.space "ram" (by decide)
  rw [Memory.readRam, here]
  exact stores.read bitwise hp (by decide) some

/-! ## A machine -/

omit bitwise lawful

namespace Plain
open Standard (Universe Element Elements)
open SortedLogic.Symbol (logicalNames not_logical)

def Atom : Srt → Type
  | .int => Int
  | .bitvec w => BitVec w
  | .datatype _ => Nat → BitVec 64 → BitVec 8
  | _ => Unit

theorem nonempty_atom (s : Srt) : Nonempty (Atom s) := by
  cases s <;> exact ⟨by unfold Atom; exact default⟩

def ofBits (x : BitVec w) : Universe Atom := ⟨.bitvec w, x⟩

def bits (w : Nat) : Universe Atom → BitVec w
  | ⟨.bitvec _, x⟩ => BitVec.setWidth w x
  | _ => 0

def cells : Universe Atom → Universe Atom → BitVec 8
  | ⟨.array [.bitvec w] (.bitvec 8), g⟩, i => g.toFun (.cons (bits w i) ())
  | _, _ => 0

def spaces : Universe Atom → Nat → BitVec 64 → BitVec 8
  | ⟨.datatype _, m⟩ => m
  | _ => 0

/-- A number, a bit pattern, an array or a memory, as the sort asks. -/
def answer (k : Int) (x : (w : Nat) → BitVec w) (g : Universe Atom → BitVec 8) (m : Nat → BitVec 64 → BitVec 8) :
    (s : Srt) → Element Atom s
  | .bool => .ofBool false
  | .int => k
  | .bitvec w => x w
  | .array _ r => .ofFun fun es => answer k (fun w => (g (es.toList.headD Standard.no)).setWidth w) g m r
  | .datatype _ => m
  | .real | .string | .char | .roundingMode | .float _ _ | .seq _ | .regex _ | .uninterpreted _ => ()

def compute (name : String) (indices : List Nat) (us : List (Universe Atom)) (w : Nat) : BitVec w :=
  match name, us with
  | "bvadd", [u, v] => bits w u + bits w v
  | "bvsub", [u, v] => bits w u - bits w v
  | "bvand", [u, v] => bits w u &&& bits w v
  | "bvashr", [u, v] => (bits w u).sshiftRight' (bits w v)
  | "extract", [⟨.bitvec _, x⟩] => .ofNat w (BitVec.toNat x >>> indices.getD 1 0)
  | "zero_extend", [u] => bits w u
  | "concat", [⟨.bitvec _, x⟩, ⟨.bitvec _, y⟩] => (BitVec.append x y).setWidth w
  | _, _ => 0

/-- What a symbol makes of elements. The memory at the start has only zeros. -/
def result (f : Symbol) (us : List (Universe Atom)) : Element Atom f.range :=
  match f.role, us with
  | .int k, _ => answer k 0 0 0 f.range
  | .bits n, _ => answer 0 (.ofNat · n) 0 0 f.range
  | .accessor _ i, [u] => answer 0 0 (fun j => spaces u i (bits 64 j)) 0 f.range
  | .constructor, _ => answer 0 0 0 (fun i j => cells (us.getD i Standard.no) (ofBits j)) f.range
  | .builtin _, [u, ⟨.bitvec w, i⟩, v] => answer 0 0 (fun j =>
      if bits w j = (show BitVec w from i) then bits 8 v else cells u j) 0 f.range
  | .builtin is, _ => answer 0 (compute f.name is us) 0 0 f.range
  | _, _ => answer 0 0 0 0 f.range

noncomputable def machine : Frame (Universe Atom) := Standard.frame result nonempty_atom

theorem machine_fn {f : Symbol} (other : f.name ∉ logicalNames) (us : List (Universe Atom)) :
    machine.fn f us = ⟨f.range, result f us⟩ := Standard.apply_free result (not_logical other) us

theorem pattern_eq (x : BitVec w) : machine.pattern x = ofBits x := (machine_fn (show "bv" ∉ logicalNames by decide) []).trans
    (congrArg (Universe.mk (.bitvec w)) (BitVec.ofNat_toNat w x |>.trans (BitVec.setWidth_eq x)))

theorem bits_ofBits (x : BitVec w) : bits w (ofBits x) = x := BitVec.setWidth_eq x

theorem machine_onBits (f : BitVec w → BitVec w → BitVec w) (x y : BitVec w) (other : name ∉ logicalNames)
    (law : compute name [] [ofBits x, ofBits y] w = f (bits w (ofBits x)) (bits w (ofBits y))) :
    machine.fn (.onBits name w) [machine.pattern x, machine.pattern y] = machine.pattern (f x y) := by
  rw [pattern_eq, pattern_eq, pattern_eq, machine_fn other]
  rw [bits_ofBits, bits_ofBits] at law
  exact congrArg (Universe.mk (.bitvec w)) law

theorem machine_bitwise : machine.Bitwise where
  exists_pattern w u mem := by
    obtain ⟨_, x⟩ := u
    cases mem
    exact ⟨x, (pattern_eq x).symm⟩
  injective w x y same := by
    rw [pattern_eq, pattern_eq] at same
    exact Standard.Universe.element_eq same
  add w x y := machine_onBits (· + ·) x y (by decide) rfl
  sub w x y := machine_onBits (· - ·) x y (by decide) rfl
  and w x y := machine_onBits (· &&& ·) x y (by decide) rfl
  ashr w x y := machine_onBits BitVec.sshiftRight' x y (by decide) rfl
  extract w i j x := by
    rw [pattern_eq, pattern_eq, machine_fn (show "extract" ∉ logicalNames by decide)]
    rfl
  zeroExtend w n x := by
    rw [pattern_eq, pattern_eq, machine_fn (show "zero_extend" ∉ logicalNames by decide)]
    rfl
  concat w v x y := by
    rw [pattern_eq, pattern_eq, pattern_eq, machine_fn (show "concat" ∉ logicalNames by decide)]
    exact congrArg (Universe.mk (.bitvec (w + v))) (BitVec.setWidth_eq (x ++ y))
  store w u mem i j y := by
    obtain ⟨_, g⟩ := u
    cases mem
    have select (h : Element Atom (.bytes w)) : machine.byteAt ⟨.bytes w, h⟩ j = ⟨.bitvec 8, h.toFun (.cons j ())⟩ := by
      rw [Frame.byteAt, pattern_eq]
      exact (Standard.apply_fixed result (.select [.bitvec w] (.bitvec 8)) _).trans (Standard.read_array _ h (.cons j ()))
    rw [machine_fn (show "store" ∉ logicalNames by decide), pattern_eq i, pattern_eq y]
    refine (select _).trans ?_
    rw [select]
    show ofBits (BitVec.setWidth 8 (if bits w (ofBits j) = i then bits 8 (ofBits y) else cells _ (ofBits j))) = _
    rw [bits_ofBits]
    split
    · rfl
    · show ofBits (g.toFun (.cons (bits w (ofBits j)) ())) = _
      rw [bits_ofBits]
      rfl

theorem read_back : ∃ a', Bytes.write (.const "a" (.bytes 8)) (.number 255) (.bits 258 16) = .ok a' ∧
    machine.Makes [] (Bytes.read a' (.number 255) 2) (258 : BitVec 16) := by
  obtain ⟨g, stores⟩ := Frame.exists_stores machine_bitwise (a := .const "a" (.bytes 8)) rfl
    (machine.fn_mem ⟨"a", [], .bytes 8, .free⟩ [] .nil)
  obtain ⟨⟨a', done, read, -⟩, -⟩ := Frame.write_then_read machine_bitwise stores (.number 255) (by decide) (n := 2)
    (machine.carries_bits [] 258 16) (by decide) (by decide)
  exact ⟨a', done, read⟩

theorem machine_lawful : Lawful machine where
  numbers m n same := by
    have value (k : Int) : machine.eval [] (.int k) = ⟨.int, k⟩ := machine_fn (show "Int" ∉ logicalNames by decide) []
    rw [value, value] at same
    exact Standard.Universe.element_eq same
  record us fits := by
    have read (name : String) (other : name ∉ logicalNames) {i : Nat} {u : Universe Atom} (sort : u.sort = spaceSort)
        (at' : us.getD i Standard.no = u) : machine.fn (accessor name i) [machine.fn pack us] = u := by
      obtain ⟨_, g⟩ := u
      cases sort
      rw [machine_fn other, machine_fn (show pack.name ∉ logicalNames by decide)]
      refine congrArg (Universe.mk spaceSort) (funext fun es => ?_)
      let k : BitVec 64 := es.1
      show BitVec.setWidth 8 (cells (us.getD i Standard.no) (ofBits (bits 64 (ofBits k)))) = _
      rw [at']
      rfl
    rcases fits with _ | ⟨ram, _ | ⟨register, _ | ⟨unique, _ | _⟩⟩⟩
    exact congr (congrArg cons (read "ram" (by decide) ram rfl)) (congr (congrArg cons (read "register" (by decide) register rfl))
      (congrArg (· :: []) (read "unique" (by decide) unique rfl)))

/-- Of two writes of two bytes each, the second one covers the upper byte of the first. -/
theorem written_last : ∃ m₁ m₂, Memory.write Sample.memory ⟨"register", 0, 2⟩ (.bits 258 16) = .ok m₁ ∧
    Memory.write m₁ ⟨"register", 1, 2⟩ (.bits 1029 16) = .ok m₂ ∧
      machine.Makes [] (Memory.read m₂ ⟨"register", 0, 1⟩) (2 : BitVec 8) ∧
      machine.Makes [] (Memory.read m₂ ⟨"register", 1, 1⟩) (5 : BitVec 8) := by
  have means (i : Nat) (n : Int) : Write.Means machine [] (.place ⟨"register", i, 2⟩ (.bits n 16))
      ⟨"register", BitVec.ofInt 64 i, 2, (BitVec.ofInt 16 n).toNat⟩ :=
    .place (k := 2) (show "register" ∈ spaceNames by decide) (machine.carries_bits [] n 16) (by decide)
  obtain ⟨S, m₂, -, done, -, read, -⟩ := writes_exact machine_bitwise machine_lawful (Sample.formed.stands machine_lawful)
    (.cons (means 0 258) (.cons (means 1 1029) .nil))
  obtain ⟨m₁, first, rest⟩ := bind_eq_ok.1 done
  obtain ⟨_, second, rest⟩ := bind_eq_ok.1 rest
  cases rest
  have byte (i : Int) := read ⟨"register", i, 1⟩ (.inr (show "register" ∈ spaceNames by decide)) Nat.one_pos
  exact ⟨m₁, m₂, first, second, byte 0, byte 1⟩

end Plain
end Machine
end SortedLogic
