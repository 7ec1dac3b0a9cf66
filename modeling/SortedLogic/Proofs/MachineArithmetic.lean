import SortedLogic.Proofs.ByteMemory

/-!
# Values that the machine computes

The ones of a pattern are counted in a sum of the width of the pattern, which never wraps (`popcount_counts`).
-/

namespace SortedLogic.Machine
open List
open Checked (bind_eq_ok)
open SortedLogic.Frame (eval_app)
universe u
variable {U : Type u} {F : Frame U} {ρ : List U} {w v n k : Nat} {a t m : Term} {x : BitVec w}
  (bitwise : F.Bitwise) (lawful : Lawful F)

def ones (bit : Nat → Bool) (k : Nat) : Nat := (range k).countP bit

theorem ones_le (bit : Nat → Bool) (k : Nat) : ones bit k ≤ k := countP_le_length.trans length_range.le

theorem ones_succ (bit : Nat → Bool) (k : Nat) : ones bit (k + 1) = ones bit k + (bit k).toNat := by
  rw [ones, range_succ, countP_append, countP_singleton]
  cases bit k <;> rfl

theorem shifted_bit (lt : k < w) : x.sshiftRight' (BitVec.ofInt w k) &&& BitVec.ofInt w 1 =
    BitVec.ofNat w (x.getLsbD k).toNat := by
  have small : k < 2 ^ w := lt.trans Nat.lt_two_pow_self
  have amount : (BitVec.ofInt w k).toNat = k := by rw [BitVec.ofInt_natCast, BitVec.toNat_ofNat, Nat.mod_eq_of_lt small]
  rw [BitVec.sshiftRight', amount]
  refine BitVec.eq_of_getLsbD_eq fun j mem => ?_
  have one : BitVec.ofInt w 1 = 1#w := BitVec.ofInt_natCast w 1
  rw [BitVec.getLsbD_and, BitVec.getLsbD_sshiftRight]
  by_cases first : j = 0
  · subst first
    cases x.getLsbD k <;> simp [lt, mem, Nat.ne_of_gt mem]
  · cases x.getLsbD k <;> simp [first, BitVec.getLsbD_one]

include bitwise

theorem countOnes_makes (pos : 0 < w) (ha : F.Carries ρ a x) : F.Makes ρ (countOnes a w) (BitVec.ofNat w (ones x.getLsbD w)) := by
  have steps : ∀ k ≤ w, ∀ t, F.Carries ρ t (0 : BitVec w) → F.Makes ρ ((range k).foldlM (fun sum (i : Nat) => do
      let bit ← Bits.withNumber (Bits.binary "bvand") (← Bits.withNumber (Bits.binary "bvashr") a i) 1
      Bits.add sum bit) t) (BitVec.ofNat w (ones x.getLsbD k)) := by
    intro k
    induction k with
    | zero => exact fun _ t ht => ⟨t, rfl, ht⟩
    | succ k ih =>
      intro le t ht
      rw [range_succ, foldlM_append]
      refine (ih (by omega) t ht).bind fun sum hs => ?_
      refine Frame.Makes.bind ?_ fun t ht => ⟨t, rfl, ht⟩
      refine (ha.withNumber (bitwise.ashr w) pos k).bind fun _ shifted => (shifted.withNumber (bitwise.and w) pos 1).bind
        fun _ bit => ?_
      rw [shifted_bit (by omega)] at bit
      rw [ones_succ, BitVec.ofNat_add]
      exact hs.binary (bitwise.add w) bit
  exact (F.makes_word ρ pos 0).bind (steps w le_rfl)

theorem fit_makes (pos : 0 < v) (small : n < 2 ^ w) (ha : F.Carries ρ a (BitVec.ofNat w n)) :
    F.Makes ρ (fit w v a) (BitVec.ofNat v n) := by
  unfold fit
  by_cases wider : w < v
  · rw [if_pos wider]
    have made := ha.zeroExtend bitwise (n := v - w) (v := v) (by omega)
    rwa [BitVec.setWidth_ofNat_of_le_of_lt wider.le small] at made
  rw [if_neg wider]
  by_cases narrower : v < w
  · rw [if_pos narrower, if_neg (by omega)]
    have made := ha.extract bitwise (i := v - 1) (j := 0) (v := v) (by omega) (by omega) (by omega)
    rwa [BitVec.toNat_ofNat, Nat.mod_eq_of_lt small] at made
  · obtain rfl : w = v := by omega
    exact ⟨a, if_neg narrower, ha⟩

include lawful

/-- The number of ones of what is read, cut to the size of the output, is written there and nowhere else. -/
theorem popcount_counts {o : Operation} {out source : Place} {others : List Place} {μ : U} (stands : Stands F ρ m μ)
    (output : o.output = some out) (inputs : o.inputs = source :: others) (known : out.space ∈ spaceNames)
    (readable : source.isConst ∨ source.space ∈ spaceNames) (size : 0 < source.size) (size' : 0 < out.size)
    (room : out.size < 2 ^ 64) :
    ∃ S m', View F ρ m S ∧ o.popcount m = .ok m' ∧ View F ρ m' (S.change ⟨out.space, BitVec.ofInt 64 out.offset, out.size,
      ones (S.value source).testBit (8 * source.size) % 2 ^ (8 * out.size)⟩) := by
  obtain ⟨S, view⟩ := stands.exists_view bitwise
  obtain ⟨x, read, hx⟩ := view.read bitwise readable size
  have bits : ones (BitVec.ofNat (8 * source.size) (S.value source)).getLsbD (8 * source.size) =
      ones (S.value source).testBit (8 * source.size) :=
    countP_congr fun i mem => by rw [BitVec.getLsbD_ofNat, decide_eq_true (mem_range.1 mem), Bool.true_and]
  obtain ⟨sum, counted, hs⟩ := countOnes_makes bitwise (by omega) hx
  rw [bits] at hs
  have small := (ones_le (S.value source).testBit (8 * source.size)).trans_lt Nat.lt_two_pow_self
  obtain ⟨t, fitted, ht⟩ := fit_makes bitwise (v := 8 * out.size) (by omega) small hs
  obtain ⟨m', done, view'⟩ := view.run bitwise lawful (.place known ht room)
  rw [BitVec.toNat_ofNat] at view'
  refine ⟨S, m', view, ?_, view'⟩
  have out' : o.result = .ok out := by rw [Operation.result, output]
  have in' : o.input 0 = .ok source := by rw [Operation.input, inputs]; rfl
  have arg : o.argument m 0 = .ok x := bind_eq_ok.2 ⟨source, in', read⟩
  exact bind_eq_ok.2 ⟨out, out', bind_eq_ok.2 ⟨x, arg, bind_eq_ok.2 ⟨source, in', bind_eq_ok.2 ⟨sum, counted,
    bind_eq_ok.2 ⟨t, fitted, done⟩⟩⟩⟩⟩

omit bitwise lawful in
theorem popcount_of_byte : ∃ S m', View Plain.machine [] Sample.memory S ∧
    Operation.popcount ⟨.popcount, some ⟨"register", 0, 1⟩, [⟨"const", 255, 2⟩]⟩ Sample.memory = .ok m' ∧
    View Plain.machine [] m' (S.change ⟨"register", 0, 1, 8⟩) := by
  let out : Place := ⟨"register", 0, 1⟩
  let source : Place := ⟨"const", 255, 2⟩
  have stands := Sample.formed.stands Plain.machine_lawful
  obtain ⟨S, m', view, done, view'⟩ := popcount_counts (o := ⟨.popcount, some out, [source]⟩) Plain.machine_bitwise
    Plain.machine_lawful stands rfl rfl (show out.space ∈ spaceNames by decide) (.inl (show source.isConst by decide))
    Nat.two_pos Nat.one_pos (show 1 < 2 ^ 64 by decide)
  have value : S.value source = 255 := rfl
  have eight : ones (Nat.testBit 255) 16 % 2 ^ 8 = 8 := by decide
  rw [value, show 8 * source.size = 16 from rfl, show 8 * out.size = 8 from rfl, eight] at view'
  exact ⟨S, m', view, done, view'⟩

end SortedLogic.Machine
