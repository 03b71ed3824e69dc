import Ccmchain.Common.Math
import Ccmchain.Vm.Stack

/-!
# `core/vm/analysis.go`: the JUMPDEST analysis

`codeBitmap` sets a bit for every byte of push data. It walks the code as the interpreter does,
one byte past an ordinary opcode and `n + 1` bytes past `PUSHn` (`opPush1`, `makePush`). The
bitmap has four bytes of slack, so that the data of a `PUSH32` at the end of the code still
falls inside it. A write past its end would be a Go panic, which is `none` here.
`validJumpdest` accepts a destination that lies inside the code, holds `JUMPDEST` and is not
push data. The `CodeHash` cache of the analysis is left out: it stores the same `codeBitmap`.

The linear decoding is `instrStartFrom`, and `pushDataFrom` gives the bytes it skips.
`codeBitmap` marks exactly those bytes (`codeBitmap_spec`), and inside the code each byte is one
or the other. So a jump destination is valid exactly at an instruction start that holds
`JUMPDEST`, for code of at most `2 ^ 62` bytes. Longer code is different: there `validJumpdest`
refuses every destination of 63 bits or more.
-/

namespace Ccmchain.Vm

open Common

/-- `JUMPDEST`. -/
def JUMPDEST : UInt8 := 0x5b

/-- `PUSH1`. -/
def PUSH1 : UInt8 := 0x60

/-- `PUSH32`. -/
def PUSH32 : UInt8 := 0x7f

/-! ### The push instructions -/

/-- `opPush1`: the program counter on the byte after the opcode, and that byte pushed, or zero
past the end of the code. -/
def opPush1 (code : List UInt8) (pc : Nat) (stack : Stack) : Nat × Stack :=
  let pc := pc + 1
  if h : pc < code.length then (pc, stack.push code[pc].toNat) else (pc, stack.push 0)

/-- `makePush(size, pushByteSize)`: the `pushByteSize` bytes after the opcode, padded with zeros
past the end of the code, pushed as one number; the program counter moves by `size`. -/
def makePush (size pushByteSize : Nat) (code : List UInt8) (pc : Nat) (stack : Stack) :
    Nat × Stack :=
  let codeLen := code.length
  let startMin := if pc + 1 < codeLen then pc + 1 else codeLen
  let endMin := if startMin + pushByteSize < codeLen then startMin + pushByteSize else codeLen
  let integer := BigEndian.toNat
    (RightPadBytes ((code.drop startMin).take (endMin - startMin)) pushByteSize)
  (pc + size, stack.push integer)

/-- The `execute` of `PUSHn` in the jump tables: `opPush1` for `PUSH1` and `makePush(n, n)` for
the others. -/
def pushExecute (op : UInt8) : List UInt8 → Nat → Stack → Nat × Stack :=
  if op = PUSH1 then opPush1 else makePush (op - PUSH1 + 1).toNat (op - PUSH1 + 1).toNat

/-! ### The bitmap -/

/-- `bitvec`: a bit for each byte of code, the most significant bit first, set where the byte is
push data. -/
abbrev bitvec := List UInt8

namespace bitvec

/-- `(*bits)[i] |= m`; an index past the end is a panic. -/
def orAt (bits : bitvec) (i : Nat) (m : UInt8) : Option bitvec :=
  if i < bits.length then some (bits.modify i (· ||| m)) else none

/-- `bitvec.set`. -/
def set (bits : bitvec) (pos : Nat) : Option bitvec :=
  bits.orAt (pos / 8) (0x80 >>> (pos % 8).toUInt8)

/-- `bitvec.set8`: the eight bits from `pos`, across two bytes. -/
def set8 (bits : bitvec) (pos : Nat) : Option bitvec := do
  let bits ← bits.orAt (pos / 8) (0xFF >>> (pos % 8).toUInt8)
  bits.orAt (pos / 8 + 1) (~~~(0xFF >>> (pos % 8).toUInt8))

/-- `bitvec.codeSegment`; an index past the end is a panic. -/
def codeSegment (bits : bitvec) (pos : Nat) : Option Bool :=
  bits[pos / 8]?.map fun b => b &&& (0x80 >>> (pos % 8).toUInt8) == 0

/-- The bit of `pos`, clear past the end. -/
def bitAt (bits : bitvec) (pos : Nat) : Bool :=
  match bits[pos / 8]? with
  | some b => b &&& (0x80 >>> (pos % 8).toUInt8) != 0
  | none => false

end bitvec

/-- The second inner loop of `codeBitmap`: one bit at a time. -/
def setLoop (bits : bitvec) (pc : Nat) : Nat → Option bitvec
  | 0 => some bits
  | numbits + 1 => bits.set pc >>= fun bits => setLoop bits (pc + 1) numbits

/-- The two inner loops of `codeBitmap` over the `numbits` bytes of data from `pc`: eight at a
time by `set8` while eight remain, then one at a time. -/
def markData (bits : bitvec) (pc numbits : Nat) : Option bitvec :=
  if numbits ≥ 8 then bits.set8 pc >>= fun bits => markData bits (pc + 8) (numbits - 8)
  else setLoop bits pc numbits
termination_by numbits

/-- The outer loop of `codeBitmap` from `pc`. The inner loops move `pc` past the data, to
`pc + 1 + numbits`. -/
def codeBitmapLoop (code : List UInt8) (bits : bitvec) (pc : Nat) : Option bitvec :=
  if h : pc < code.length then
    let op := code[pc]
    if PUSH1 ≤ op ∧ op ≤ PUSH32 then
      let numbits := (op - PUSH1 + 1).toNat
      markData bits (pc + 1) numbits >>= fun bits => codeBitmapLoop code bits (pc + 1 + numbits)
    else codeBitmapLoop code bits (pc + 1)
  else some bits
termination_by code.length - pc

/-- `codeBitmap`. -/
def codeBitmap (code : List UInt8) : Option bitvec :=
  codeBitmapLoop code (List.replicate (code.length / 8 + 1 + 4) 0) 0

/-- `Contract.validJumpdest` on the contract's code. -/
def validJumpdest (code : List UInt8) (dest : Int) : Option Bool :=
  let udest := (Uint64 dest).toNat
  if BitLen dest ≥ 63 ∨ udest ≥ code.length then some false
  else if code[udest]? ≠ some JUMPDEST then some false
  else codeBitmap code >>= fun analysis => analysis.codeSegment udest

/-! ### The linear decoding -/

/-- How far the decoding moves past an opcode: the opcode, and for `PUSHn` its `n` bytes. -/
def advance (op : UInt8) : Nat := if PUSH1 ≤ op ∧ op ≤ PUSH32 then (op - PUSH1).toNat + 2 else 1

theorem advance_pos (op : UInt8) : 0 < advance op := by
  unfold advance
  split <;> omega

/-- Whether the decoding from `pc` stops at `q`. -/
def instrStartFrom (code : List UInt8) (pc q : Nat) : Bool :=
  if h : pc < code.length then q == pc || instrStartFrom code (pc + advance code[pc]) q
  else q == pc
termination_by code.length - pc
decreasing_by
  have := advance_pos code[pc]
  omega

/-- Whether the decoding from `pc` skips `q` as push data. -/
def pushDataFrom (code : List UInt8) (pc q : Nat) : Bool :=
  if h : pc < code.length then
    (pc < q && q < pc + advance code[pc]) || pushDataFrom code (pc + advance code[pc]) q
  else false
termination_by code.length - pc
decreasing_by
  have := advance_pos code[pc]
  omega

theorem pushDataFrom_of_lt_length {code : List UInt8} {pc : Nat} (h : pc < code.length) (q : Nat) :
    pushDataFrom code pc q =
      ((pc < q && q < pc + advance code[pc]) || pushDataFrom code (pc + advance code[pc]) q) := by
  rw [pushDataFrom, dif_pos h]

theorem pushDataFrom_of_length_le {code : List UInt8} {pc : Nat} (h : code.length ≤ pc) (q : Nat) :
    pushDataFrom code pc q = false := by
  rw [pushDataFrom, dif_neg (by omega)]

/-- Push data lies past the position the decoding starts from. -/
theorem pushDataFrom_of_le (code : List UInt8) {pc q : Nat} :
    q ≤ pc → pushDataFrom code pc q = false := by
  fun_induction pushDataFrom code pc q with
  | case1 pc h ih =>
    intro hq
    have := advance_pos code[pc]
    rw [ih (by omega)]
    simp only [Bool.or_false, Bool.and_eq_false_iff, decide_eq_false_iff_not]
    omega
  | case2 => intro _; rfl

theorem instrStartFrom_of_lt (code : List UInt8) {pc q : Nat} :
    q < pc → instrStartFrom code pc q = false := by
  fun_induction instrStartFrom code pc q with
  | case1 pc h ih =>
    intro hq
    have := advance_pos code[pc]
    rw [ih (by omega)]
    simp only [Bool.or_false, beq_eq_false_iff_ne]
    omega
  | case2 pc h =>
    intro hq
    simp only [beq_eq_false_iff_ne]
    omega

/-- Inside the code, each byte from where the decoding starts is an instruction start or push
data, and not both. -/
theorem pushDataFrom_eq_not_instrStartFrom (code : List UInt8) {pc q : Nat} :
    pc ≤ q → q < code.length → pushDataFrom code pc q = !instrStartFrom code pc q := by
  fun_induction pushDataFrom code pc q with
  | case1 pc h ih =>
    intro hpc hq
    have := advance_pos code[pc]
    rw [instrStartFrom, dif_pos h]
    rcases Nat.lt_or_ge q (pc + advance code[pc]) with hlt | hge
    · -- `q` is the start `pc` or inside its data
      rw [pushDataFrom_of_le code hlt.le, instrStartFrom_of_lt code hlt]
      by_cases hq' : q = pc
      · simp [hq']
      · simp [hq', hlt, show pc < q by omega]
    · -- `q` lies past the first instruction
      rw [ih hge hq]
      simp [Nat.not_lt.2 hge, show q ≠ pc by omega]
  | case2 pc h =>
    intro hpc hq
    omega

/-! ### Push opcodes -/

theorem toNat_sub_push1 {op : UInt8} (hop : PUSH1 ≤ op ∧ op ≤ PUSH32) :
    (op - PUSH1).toNat = op.toNat - 0x60 ∧ op.toNat - 0x60 < 32 := by
  have h1 : PUSH1.toNat = 0x60 := rfl
  have h32 : PUSH32.toNat = 0x7f := rfl
  obtain ⟨hlo, hhi⟩ := hop
  rw [UInt8.le_iff_toNat_le, h1] at hlo
  rw [UInt8.le_iff_toNat_le, h32] at hhi
  refine ⟨?_, by omega⟩
  rw [UInt8.toNat_sub_of_le _ _ (UInt8.le_iff_toNat_le.2 (by rw [h1]; exact hlo)), h1]

/-- The number of data bytes of `PUSHn`, as `codeBitmap` and `makePush` compute it, is `n`. -/
theorem toNat_numbits {op : UInt8} (hop : PUSH1 ≤ op ∧ op ≤ PUSH32) :
    (op - PUSH1 + 1).toNat = (op - PUSH1).toNat + 1 := by
  obtain ⟨hsub, hlt⟩ := toNat_sub_push1 hop
  rw [UInt8.toNat_add, hsub]
  have h1 : (1 : UInt8).toNat = 1 := rfl
  rw [h1, Nat.mod_eq_of_lt (by omega)]

theorem advance_of_push {op : UInt8} (hop : PUSH1 ≤ op ∧ op ≤ PUSH32) :
    advance op = (op - PUSH1 + 1).toNat + 1 := by
  rw [advance, if_pos hop, toNat_numbits hop]

theorem opPush1_fst (code : List UInt8) (pc : Nat) (stack : Stack) :
    (opPush1 code pc stack).1 = pc + 1 := by
  simp only [opPush1]
  split <;> rfl

/-- `Run` moves past a push as the decoding does: the `execute` of the jump table, then
`pc++`. -/
theorem pushExecute_advance {op : UInt8} (hop : PUSH1 ≤ op ∧ op ≤ PUSH32) (code : List UInt8)
    (pc : Nat) (stack : Stack) : (pushExecute op code pc stack).1 + 1 = pc + advance op := by
  rw [advance_of_push hop]
  unfold pushExecute
  split
  · rename_i h
    subst h
    rw [opPush1_fst]
    rfl
  · rfl

/-! ### What `codeBitmap` marks -/

namespace bitvec

theorem or_and_eq_zero_iff (b m x : UInt8) :
    (b ||| m) &&& x = 0 ↔ b &&& x = 0 ∧ m &&& x = 0 := by
  rw [← UInt8.toBitVec_inj, ← UInt8.toBitVec_inj, ← UInt8.toBitVec_inj]
  simp [BitVec.and_or_distrib_right, BitVec.or_eq_zero_iff]

theorem or_and_ne_zero (b m x : UInt8) :
    ((b ||| m) &&& x != 0) = ((b &&& x != 0) || (m &&& x != 0)) := by
  rw [Bool.eq_iff_iff]
  simp only [bne_iff_ne, ne_eq, Bool.or_eq_true, or_and_eq_zero_iff]
  tauto

/-- An `|=` at byte `i` sets the bits of `m` there and no others. -/
theorem orAt_spec {bits : bitvec} {i : Nat} (m : UInt8) (hi : i < bits.length) :
    ∃ bits', bits.orAt i m = some bits' ∧ bits'.length = bits.length ∧
      ∀ q, bits'.bitAt q =
        (bits.bitAt q || (q / 8 == i && m &&& (0x80 >>> (q % 8).toUInt8) != 0)) := by
  refine ⟨_, if_pos hi, List.length_modify _ _ _, fun q => ?_⟩
  simp only [bitAt, List.getElem?_modify]
  rcases hb : bits[q / 8]? with _ | b
  · have hq : q / 8 ≠ i := by
      rintro rfl
      simp at hb
      omega
    simp [hq]
  · by_cases hq : i = q / 8
    · subst hq
      simp [or_and_ne_zero]
    · simp [hq, Ne.symm hq]

theorem bit_mask {r s : Nat} (hr : r < 8) (hs : s < 8) :
    ((0x80 : UInt8) >>> r.toUInt8 &&& (0x80 >>> s.toUInt8) != 0) = decide (r = s) := by
  have h : ∀ r s : Fin 8,
      ((0x80 : UInt8) >>> r.val.toUInt8 &&& (0x80 >>> s.val.toUInt8) != 0) = decide (r = s) := by
    decide
  simpa using h ⟨r, hr⟩ ⟨s, hs⟩

theorem high_mask {r s : Nat} (hr : r < 8) (hs : s < 8) :
    ((0xFF : UInt8) >>> r.toUInt8 &&& (0x80 >>> s.toUInt8) != 0) = decide (r ≤ s) := by
  have h : ∀ r s : Fin 8,
      ((0xFF : UInt8) >>> r.val.toUInt8 &&& (0x80 >>> s.val.toUInt8) != 0) = decide (r ≤ s) := by
    decide
  simpa using h ⟨r, hr⟩ ⟨s, hs⟩

theorem low_mask {r s : Nat} (hr : r < 8) (hs : s < 8) :
    (~~~((0xFF : UInt8) >>> r.toUInt8) &&& (0x80 >>> s.toUInt8) != 0) = decide (s < r) := by
  have h : ∀ r s : Fin 8,
      (~~~((0xFF : UInt8) >>> r.val.toUInt8) &&& (0x80 >>> s.val.toUInt8) != 0) =
        decide (s < r) := by
    decide
  simpa using h ⟨r, hr⟩ ⟨s, hs⟩

/-- `set` sets the bit of `pos` and no other. -/
theorem set_spec {bits : bitvec} {pos : Nat} (h : pos / 8 < bits.length) :
    ∃ bits', bits.set pos = some bits' ∧ bits'.length = bits.length ∧
      ∀ q, bits'.bitAt q = (bits.bitAt q || q == pos) := by
  obtain ⟨bits', hset, hlen, hbit⟩ := orAt_spec (0x80 >>> (pos % 8).toUInt8) h
  refine ⟨bits', hset, hlen, fun q => ?_⟩
  rw [hbit, bit_mask (Nat.mod_lt _ (by omega)) (Nat.mod_lt _ (by omega))]
  congr 1
  rw [Bool.eq_iff_iff]
  simp only [Bool.and_eq_true, beq_iff_eq, decide_eq_true_eq]
  omega

/-- `set8` sets the eight bits from `pos` and no others, whether or not `pos` is aligned. -/
theorem set8_spec {bits : bitvec} {pos : Nat} (h : pos / 8 + 1 < bits.length) :
    ∃ bits', bits.set8 pos = some bits' ∧ bits'.length = bits.length ∧
      ∀ q, bits'.bitAt q = (bits.bitAt q || (pos ≤ q && q < pos + 8)) := by
  obtain ⟨bits₁, h₁, hlen₁, hbit₁⟩ :=
    orAt_spec (0xFF >>> (pos % 8).toUInt8) (by omega : pos / 8 < bits.length)
  obtain ⟨bits₂, h₂, hlen₂, hbit₂⟩ :=
    orAt_spec (~~~(0xFF >>> (pos % 8).toUInt8)) (by omega : pos / 8 + 1 < bits₁.length)
  refine ⟨bits₂, by simp [set8, h₁, h₂], by omega, fun q => ?_⟩
  have hr : pos % 8 < 8 := Nat.mod_lt _ (by omega)
  have hs : q % 8 < 8 := Nat.mod_lt _ (by omega)
  rw [hbit₂, hbit₁, high_mask hr hs, low_mask hr hs, Bool.or_assoc]
  congr 1
  -- the first byte takes the bits from `pos % 8` on, the second those before it
  rw [Bool.eq_iff_iff]
  simp only [Bool.or_eq_true, Bool.and_eq_true, beq_iff_eq, decide_eq_true_eq]
  omega

end bitvec

theorem setLoop_spec {bits : bitvec} {pc n : Nat} (h : pc + n ≤ 8 * bits.length) :
    ∃ bits', setLoop bits pc n = some bits' ∧ bits'.length = bits.length ∧
      ∀ q, bits'.bitAt q = (bits.bitAt q || (pc ≤ q && q < pc + n)) := by
  induction n generalizing bits pc with
  | zero => exact ⟨bits, rfl, rfl, fun q => by simp⟩
  | succ n ih =>
    obtain ⟨bits₁, h₁, hlen₁, hbit₁⟩ := bitvec.set_spec (by omega : pc / 8 < bits.length)
    obtain ⟨bits₂, h₂, hlen₂, hbit₂⟩ := ih (by omega : pc + 1 + n ≤ 8 * bits₁.length)
    refine ⟨bits₂, by simp [setLoop, h₁, h₂], by omega, fun q => ?_⟩
    rw [hbit₂, hbit₁, Bool.or_assoc]
    congr 1
    rw [Bool.eq_iff_iff]
    simp only [Bool.or_eq_true, Bool.and_eq_true, beq_iff_eq, decide_eq_true_eq]
    omega

/-- The inner loops set the bits of the `numbits` bytes from `pc`, and stay inside the bitmap
when those bytes end before its last eight bits do. -/
theorem markData_spec {bits : bitvec} {pc n : Nat} :
    pc + n < 8 * bits.length →
      ∃ bits', markData bits pc n = some bits' ∧ bits'.length = bits.length ∧
        ∀ q, bits'.bitAt q = (bits.bitAt q || (pc ≤ q && q < pc + n)) := by
  fun_induction markData bits pc n with
  | case1 bits pc n hn ih =>
    intro h
    obtain ⟨bits₁, h₁, hlen₁, hbit₁⟩ := bitvec.set8_spec (by omega : pc / 8 + 1 < bits.length)
    obtain ⟨bits₂, h₂, hlen₂, hbit₂⟩ := ih bits₁ (by omega)
    refine ⟨bits₂, by simp [h₁, h₂], by omega, fun q => ?_⟩
    rw [hbit₂, hbit₁, Bool.or_assoc]
    congr 1
    rw [Bool.eq_iff_iff]
    simp only [Bool.or_eq_true, Bool.and_eq_true, decide_eq_true_eq]
    omega
  | case2 bits pc n hn =>
    intro h
    exact setLoop_spec (by omega)

/-- The outer loop from `pc` sets the bits of the data the decoding from `pc` skips, given
room for the data of a push at the last byte of the code. -/
theorem codeBitmapLoop_spec {code : List UInt8} {bits : bitvec} {pc : Nat} :
    code.length + 32 < 8 * bits.length →
      ∃ bits', codeBitmapLoop code bits pc = some bits' ∧ bits'.length = bits.length ∧
        ∀ q, bits'.bitAt q = (bits.bitAt q || pushDataFrom code pc q) := by
  fun_induction codeBitmapLoop code bits pc with
  | case1 bits pc h op hpush numbits ih =>
    intro hroom
    have hop : PUSH1 ≤ code[pc] ∧ code[pc] ≤ PUSH32 := hpush
    obtain ⟨hsub, hlt⟩ := toNat_sub_push1 hop
    have hn := toNat_numbits hop
    obtain ⟨bits₁, h₁, hlen₁, hbit₁⟩ :=
      markData_spec (by omega : pc + 1 + (code[pc] - PUSH1 + 1).toNat < 8 * bits.length)
    obtain ⟨bits₂, h₂, hlen₂, hbit₂⟩ := ih bits₁ (by omega)
    refine ⟨bits₂, ?_, by omega, fun q => ?_⟩
    · simp only [numbits, op] at h₂ ⊢
      rw [h₁]
      exact h₂
    have hnext : pc + 1 + numbits = pc + ((code[pc] - PUSH1 + 1).toNat + 1) := by
      simp only [numbits, op]
      omega
    rw [hbit₂, hbit₁, Bool.or_assoc, pushDataFrom_of_lt_length h, advance_of_push hop, hnext]
    congr 2
  | case2 bits pc h op hpush ih =>
    intro hroom
    obtain ⟨bits', h', hlen', hbit'⟩ := ih hroom
    refine ⟨bits', h', hlen', fun q => ?_⟩
    -- an ordinary opcode has no data
    have hnone : (decide (pc < q) && decide (q < pc + 1)) = false := by
      simp only [Bool.and_eq_false_iff, decide_eq_false_iff_not]
      omega
    rw [hbit', pushDataFrom_of_lt_length h q, advance, if_neg hpush, hnone, Bool.false_or]
  | case3 bits pc h =>
    intro _
    refine ⟨bits, rfl, rfl, fun q => ?_⟩
    rw [pushDataFrom_of_length_le (by omega), Bool.or_false]

theorem bitAt_replicate_zero (k q : Nat) : bitvec.bitAt (List.replicate k 0) q = false := by
  unfold bitvec.bitAt
  rw [List.getElem?_replicate]
  by_cases hq : q / 8 < k <;> simp [hq]

/-- `codeBitmap` stays inside its `len(code) / 8 + 5` bytes, even when the code ends inside a
`PUSH32`, and sets exactly the bits of the push data of the linear decoding. -/
theorem codeBitmap_spec (code : List UInt8) :
    ∃ bits, codeBitmap code = some bits ∧ bits.length = code.length / 8 + 5 ∧
      ∀ q, bits.bitAt q = pushDataFrom code 0 q := by
  obtain ⟨bits, h, hlen, hbit⟩ :=
    @codeBitmapLoop_spec code (List.replicate (code.length / 8 + 1 + 4) 0) 0
      (by simp only [List.length_replicate]; omega)
  refine ⟨bits, h, by simp [hlen], fun q => ?_⟩
  rw [hbit, bitAt_replicate_zero, Bool.false_or]

example : codeBitmap [0x7f] = some [0x7f, 0xff, 0xff, 0xff, 0x80] := by decide +kernel

example : codeBitmap [0, 0, 0, 0, 0, 0, 0, 0x7f] = some [0, 0xff, 0xff, 0xff, 0xff, 0] := by
  decide +kernel

theorem bitvec.codeSegment_of_lt {bits : bitvec} {pos : Nat} (h : pos / 8 < bits.length) :
    bits.codeSegment pos = some (!bits.bitAt pos) := by
  unfold bitvec.codeSegment bitvec.bitAt
  rw [List.getElem?_eq_getElem h]
  simp [bne]

/-- A destination at or past the end of the code is refused, whatever its size. -/
theorem validJumpdest_of_length_le {code : List UInt8} {d : Nat} (hd : code.length ≤ d) :
    validJumpdest code d = some false := by
  unfold validJumpdest
  rw [if_pos]
  by_cases hd62 : d < 2 ^ 62
  · right
    rw [toNat_uint64_natCast (by omega)]
    exact hd
  · left
    exact (bitLen_natCast_ge_iff d 62).2 (by omega)

/-- In code without pushes every byte starts an instruction. -/
theorem instrStartFrom_of_advance_one {code : List UInt8}
    (hadv : ∀ i (h : i < code.length), advance code[i] = 1) {pc q : Nat} :
    pc ≤ q → q ≤ code.length → instrStartFrom code pc q = true := by
  fun_induction instrStartFrom code pc q with
  | case1 pc h ih =>
    intro hpc hq
    rw [hadv pc h] at ih ⊢
    by_cases hqpc : q = pc
    · simp [hqpc]
    · simp [ih (by omega) hq]
  | case2 pc h =>
    intro hpc hq
    simp only [beq_iff_eq]
    omega

end Ccmchain.Vm
