import Freezone.Core.Checked

/-!
# Slots

Blocks are made in slots of three seconds. A block is placed by its timestamp, counted
from the slot of the head block. A counter adds up the slots, and a register of 128 bits
with its count remembers which of the last ones were filled. Times are seconds in 32 bits.
-/

namespace Freezone.Chain.Slots

open Finset

/-- `freezone_GENESIS_TIME`. -/
def genesisTime : Nat := 1458835200

/-- `freezone_BLOCK_INTERVAL`. -/
def blockInterval : Nat := 3

/-- The part of `dynamic_global_property_object` that follows the slots, as at genesis. -/
structure Properties where
  headBlockNumber : Nat := 0
  time : Nat := genesisTime
  currentAslot : Nat := 0
  recentSlotsFilled : Nat := 2 ^ 128 - 1
  participationCount : Int := 128

namespace Properties

/-- The time of slot 0. -/
def headSlotTime (S : Properties) : Nat :=
  if S.headBlockNumber = 0 then S.time else S.time / blockInterval * blockInterval

def getSlotTime (slotNum : Nat) (S : Properties) : Nat :=
  if slotNum = 0 then 0 else (S.headSlotTime + slotNum * blockInterval) % 2 ^ 32

def getSlotAtTime (t : Nat) (S : Properties) : Nat :=
  if t < S.getSlotTime 1 then 0 else (t - S.getSlotTime 1) / blockInterval + 1

def getScheduledWitness {α : Type} (shuffled : List α) (slotNum : Nat) (S : Properties) :
    Option α :=
  shuffled[(S.currentAslot + slotNum) % shuffled.length]?

/-- A pass of the loop over the slots since the head block. -/
def recordSlot (filled : Bool) (S : Properties) : Properties :=
  { S with
    participationCount :=
      S.participationCount - (S.recentSlotsFilled.testBit 127).toNat + filled.toNat
    recentSlotsFilled := (2 * S.recentSlotsFilled + filled.toNat) % 2 ^ 128 }

/-- `update_global_dynamic_data`, without the counters of the witnesses: the slot of the block
itself is recorded before those that were missed. -/
def updateGlobalDynamicData (timestamp : Nat) (S : Properties) : Properties :=
  let missedBlocks := if S.time ≠ 0 then S.getSlotAtTime timestamp - 1 else 0
  { (recordSlot false)^[missedBlocks] (S.recordSlot true) with
    headBlockNumber := S.headBlockNumber + 1
    time := timestamp
    currentAslot := S.currentAslot + (missedBlocks + 1) }

/-- A block of the scheduled witness is checked by `validate_block_header` and applied. -/
def pushBlock {α : Type} [DecidableEq α] (shuffled : List α) (witness : α) (timestamp : Nat)
    (S : Properties) : Except String Properties := do
  ensure (S.time < timestamp) "head_block_time() < next_block.timestamp"
  let slotNum := S.getSlotAtTime timestamp
  ensure (0 < slotNum) "slot_num > 0"
  ensure (S.getScheduledWitness shuffled slotNum = some witness)
    "Witness produced block at wrong time"
  .ok (S.updateGlobalDynamicData timestamp)

end Properties

open Properties

/-- The properties after accepted blocks, with those after each of the blocks, the newest first. -/
inductive Accepted (α : Type) [DecidableEq α] : Properties → List Properties → Prop
  | genesis : Accepted α {} []
  | push {S S' : Properties} {l : List Properties} {shuffled : List α} {witness : α}
      {t : Nat} : Accepted α S l → t < 2 ^ 32 →
      S.pushBlock shuffled witness t = .ok S' → Accepted α S' (S' :: l)

section Place

variable {α : Type} [DecidableEq α] {S S' : Properties} {l : List Properties} {t : Nat}

/-- Between a slot and a time there is no third one: if the slot times do not wrap around. -/
theorem slotTime_le_iff_all {n : Nat} (hn : 1 ≤ n) :
    (∀ t < 2 ^ 32, S.getSlotTime n ≤ t ↔ n ≤ S.getSlotAtTime t) ↔
      (S.headSlotTime + blockInterval) % 2 ^ 32 + (n - 1) * blockInterval < 2 ^ 32 := by
  have hn0 : n ≠ 0 := by omega
  have hnth : (S.headSlotTime + n * 3) % 2 ^ 32 =
      ((S.headSlotTime + 3) % 2 ^ 32 + (n - 1) * 3) % 2 ^ 32 := by omega
  simp only [getSlotAtTime, getSlotTime, hn0, one_ne_zero, if_false, blockInterval, one_mul, hnth]
  clear hnth
  generalize (S.headSlotTime + 3) % 2 ^ 32 = first
  constructor
  · intro h
    have hlast := (h 4294967295 (by norm_num)).mp (by omega)
    split at hlast <;> omega
  · intro h t ht
    rw [Nat.mod_eq_of_lt h]
    split <;> omega

/-- Slots are counted in steps of three seconds. -/
theorem getSlotAtTime_eq (hS : S.headSlotTime = S.time / 3 * 3) (ht : t < 2 ^ 32)
    (hlt : S.time < t) : S.getSlotAtTime t = t / 3 - S.time / 3 := by
  have hfirst : S.time / 3 * 3 + 3 < 2 ^ 32 := by omega
  simp only [getSlotAtTime, getSlotTime, one_ne_zero, if_false, blockInterval, one_mul, hS,
    Nat.mod_eq_of_lt hfirst]
  split <;> omega

/-- The number of a slot since the epoch is that of the counter, shifted by genesis. -/
structure Placed (S : Properties) : Prop where
  headSlotTime : S.headSlotTime = S.time / 3 * 3
  time_lt : S.time < 2 ^ 32
  aslot : S.currentAslot + genesisTime / 3 = S.time / 3

/-- A block advances the absolute slot by the slot of its time. -/
theorem Placed.push {shuffled : List α} {witness : α} (hS : Placed S) (ht : t < 2 ^ 32)
    (h : S.pushBlock shuffled witness t = .ok S') :
    Placed S' ∧ S'.currentAslot = S.currentAslot + S.getSlotAtTime t ∧
      0 < S.getSlotAtTime t := by
  simp only [pushBlock, returns] at h
  obtain ⟨-, hlt, -, hslot, -, -, rfl⟩ := h
  have htime : S.time ≠ 0 := by
    have := hS.aslot
    simp only [genesisTime] at this
    omega
  have heq := getSlotAtTime_eq hS.headSlotTime ht hlt
  have haslot := hS.aslot
  simp only [updateGlobalDynamicData, if_pos htime]
  exact ⟨⟨rfl, ht, by dsimp only; omega⟩, by omega, hslot⟩

/-- Later blocks are in later absolute slots. -/
theorem Accepted.placed (h : Accepted α S l) :
    Placed S ∧ (∀ A ∈ l, Placed A) ∧ (∀ A ∈ l, A.currentAslot ≤ S.currentAslot) ∧
      l.Pairwise fun A B => B.currentAslot < A.currentAslot := by
  induction h with
  | genesis => exact ⟨⟨rfl, by decide, rfl⟩, by simp, by simp, .nil⟩
  | push hS ht h ih =>
    obtain ⟨hS, hl, hle, hsorted⟩ := ih
    obtain ⟨hplaced, haslot, hslot⟩ := hS.push ht h
    simp only [List.forall_mem_cons, List.pairwise_cons]
    refine ⟨hplaced, ⟨hplaced, hl⟩, ⟨le_rfl, fun A hA => ?_⟩, fun A hA => ?_, hsorted⟩
    · exact (hle A hA).trans (by omega)
    · exact (hle A hA).trans_lt (by omega)

/-- The slots of accepted blocks: their times, the counter, and the witness of any later slot. -/
theorem accepted_slots_iff (h : Accepted α S l) {n : Nat} (hn : 1 ≤ n) :
    ((∀ t < 2 ^ 32, S.getSlotTime n ≤ t ↔ n ≤ S.getSlotAtTime t) ∧
      (l.Pairwise fun A B => B.time / blockInterval < A.time / blockInterval) ∧
      (∀ A ∈ l, ∀ B ∈ l, (A.currentAslot : Int) - B.currentAslot =
        ↑(A.time / blockInterval) - ↑(B.time / blockInterval)) ∧
      ∀ A ∈ l, ∀ B ∈ l, ∀ t < 2 ^ 32, A.time / blockInterval < t / blockInterval →
        B.time / blockInterval < t / blockInterval → ∀ shuffled : List α,
        A.getScheduledWitness shuffled (A.getSlotAtTime t) =
          B.getScheduledWitness shuffled (B.getSlotAtTime t)) ↔
    (S.headSlotTime + blockInterval) % 2 ^ 32 + (n - 1) * blockInterval < 2 ^ 32 := by
  obtain ⟨-, hl, hle, hsorted⟩ := h.placed
  rw [slotTime_le_iff_all hn, and_iff_left_iff_imp]
  intro _
  refine ⟨?_, ?_, ?_⟩
  · refine hsorted.imp_of_mem fun {A B} hA hB hlt => ?_
    have h1 := (hl A hA).aslot
    have h2 := (hl B hB).aslot
    simp only [blockInterval]
    omega
  · intro A hA B hB
    have h1 := (hl A hA).aslot
    have h2 := (hl B hB).aslot
    simp only [blockInterval]
    omega
  · intro A hA B hB t ht hAt hBt shuffled
    simp only [blockInterval] at hAt hBt
    have h1 := (hl A hA).aslot
    have h2 := (hl B hB).aslot
    rw [getScheduledWitness, getScheduledWitness,
      getSlotAtTime_eq (hl A hA).headSlotTime ht (by omega),
      getSlotAtTime_eq (hl B hB).headSlotTime ht (by omega)]
    congr 2
    omega

end Place

/-- Two blocks at unaligned times, the second after two missed slots, seen from the third slot
after them. -/
theorem accepted_slots_twoBlocks : ∃ A B, Accepted Unit B [B, A] ∧ A.currentAslot = 1 ∧
    B.currentAslot = 4 ∧ (∀ t < 2 ^ 32, B.getSlotTime 3 ≤ t ↔ 3 ≤ B.getSlotAtTime t) ∧
    A.time / blockInterval < B.time / blockInterval ∧
    A.getScheduledWitness [()] (A.getSlotAtTime (genesisTime + 21)) =
      B.getScheduledWitness [()] (B.getSlotAtTime (genesisTime + 21)) := by
  have hA : Accepted Unit _ [_] := .push (t := genesisTime + 4) .genesis (by decide)
    (rfl : pushBlock [()] () _ _ = _)
  have hB : Accepted Unit _ [_, _] := .push (t := genesisTime + 14) hA (by decide)
    (rfl : pushBlock [()] () _ _ = _)
  have hslots : _ ∧ _ ∧ _ ∧ _ := (accepted_slots_iff hB (n := 3) (by decide)).mpr (by decide)
  obtain ⟨htimes, hapart, -, hwitness⟩ := hslots
  refine ⟨_, _, hB, by decide, by decide, htimes, ?_, ?_⟩
  · exact (List.pairwise_cons.mp hapart).1 _ List.mem_cons_self
  · exact hwitness _ (List.mem_cons_of_mem _ List.mem_cons_self) _ List.mem_cons_self _
      (by decide) (by decide) (by decide) [()]

/-- The time of a far slot wraps around. -/
theorem getSlotTime_wraps : ¬ ∀ t < 2 ^ 32,
    ({} : Properties).getSlotTime (2 ^ 31) ≤ t ↔ 2 ^ 31 ≤ ({} : Properties).getSlotAtTime t := by
  intro h
  have hwrap := h 3606318848 (by norm_num)
  revert hwrap
  decide

/-- The slot was filled by a block, or lies before the first one. -/
def Filled (l : List Properties) (slot : Int) : Prop :=
  slot ≤ 0 ∨ ∃ A ∈ l, (A.currentAslot : Int) = slot

instance (l : List Properties) (slot : Int) : Decidable (Filled l slot) :=
  inferInstanceAs (Decidable (_ ∨ _))

theorem filled_cons {A : Properties} {l : List Properties} {slot : Int} :
    Filled (A :: l) slot ↔ (A.currentAslot : Int) = slot ∨ Filled l slot := by
  simp only [Filled, List.mem_cons, exists_eq_or_imp, or_left_comm]

section Register

variable {α : Type} [DecidableEq α] {S : Properties} {l : List Properties} {filled : Bool}

/-- The newest slot is the lowest bit. -/
theorem testBit_recordSlot_zero : (S.recordSlot filled).recentSlotsFilled.testBit 0 = filled := by
  cases filled <;> simp [recordSlot]

/-- The slots before move up by one bit. -/
theorem testBit_recordSlot_succ {i : Nat} (hi : i + 1 < 128) :
    (S.recordSlot filled).recentSlotsFilled.testBit (i + 1) = S.recentSlotsFilled.testBit i := by
  have hhalf : (2 * S.recentSlotsFilled + filled.toNat) / 2 = S.recentSlotsFilled := by
    have := Bool.toNat_le filled
    omega
  rw [recordSlot, Nat.testBit_mod_two_pow, Nat.testBit_add_one, hhalf, decide_eq_true hi,
    Bool.true_and]

/-- After slots that were not filled, the register is shifted by their number. -/
theorem testBit_iterate_recordSlot (m : Nat) {i : Nat} (hi : i < 128) :
    ((recordSlot false)^[m] S).recentSlotsFilled.testBit i =
      (decide (m ≤ i) && S.recentSlotsFilled.testBit (i - m)) := by
  induction m generalizing i with
  | zero => simp
  | succ m ih =>
    rw [Function.iterate_succ_apply']
    cases i with
    | zero => rw [testBit_recordSlot_zero]; rfl
    | succ i => rw [testBit_recordSlot_succ hi, ih (by omega), Nat.add_sub_add_right]; simp

/-- The bits that are set. -/
def bitCount (r : Nat) : Int := ∑ i ∈ Finset.range 128, ((r.testBit i).toNat : Int)

/-- The participation counts the bits. -/
theorem bitCount_recordSlot (h : S.participationCount = bitCount S.recentSlotsFilled) :
    (S.recordSlot filled).participationCount =
    bitCount (S.recordSlot filled).recentSlotsFilled := by
  have hshift : ∀ i ∈ range 127,
      (((S.recordSlot filled).recentSlotsFilled.testBit (i + 1)).toNat : Int) =
        (S.recentSlotsFilled.testBit i).toNat := fun i hi => by
    rw [testBit_recordSlot_succ (Nat.succ_lt_succ (mem_range.mp hi))]
  rw [bitCount, sum_range_succ', sum_congr rfl hshift, testBit_recordSlot_zero]
  rw [bitCount, sum_range_succ] at h
  simp only [recordSlot, h]
  ring

/-- The register is one slot late: its bits are those of the slots before the head. -/
theorem Accepted.register (h : Accepted α S l) :
    S.participationCount = bitCount S.recentSlotsFilled ∧ Filled l S.currentAslot ∧
      ∀ i < 128, S.recentSlotsFilled.testBit i = decide (Filled l (S.currentAslot - (i + 1))) := by
  induction h with
  | genesis =>
    have hbits : ∀ i < 128, ({} : Properties).recentSlotsFilled.testBit i = true := fun i hi =>
      (Nat.testBit_two_pow_sub_one 128 i).trans (decide_eq_true hi)
    refine ⟨?_, .inl le_rfl, fun i hi => ?_⟩
    · rw [bitCount, sum_congr rfl fun i hi => by rw [hbits i (mem_range.mp hi)]]
      simp
    · rw [hbits i hi, eq_comm, decide_eq_true_iff]
      exact .inl (by simp)
  | @push S S' l shuffled witness t hchain ht h ih =>
    obtain ⟨hcount, hhead, hbits⟩ := ih
    obtain ⟨hS, -, hle, -⟩ := hchain.placed
    obtain ⟨-, haslot, -⟩ := hS.push ht h
    simp only [pushBlock, returns] at h
    obtain ⟨-, -, -, -, -, -, rfl⟩ := h
    refine ⟨Function.Iterate.rec
      (fun S : Properties => S.participationCount = bitCount S.recentSlotsFilled)
      (bitCount_recordSlot hcount) (fun _ => bitCount_recordSlot) _,
      .inr ⟨_, List.mem_cons_self, rfl⟩, fun i hi => ?_⟩
    have hm : (if S.time ≠ 0 then S.getSlotAtTime t - 1 else 0) + 1 = S.getSlotAtTime t := by
      simp only [updateGlobalDynamicData] at haslot
      omega
    generalize hmissed : (if S.time ≠ 0 then S.getSlotAtTime t - 1 else 0) = m at hm
    have hreg : (S.updateGlobalDynamicData t).recentSlotsFilled.testBit i =
        (decide (m ≤ i) && (S.recordSlot true).recentSlotsFilled.testBit (i - m)) := by
      rw [← testBit_iterate_recordSlot m hi, ← hmissed]
      rfl
    have hfirst : ∀ j < 128, (S.recordSlot true).recentSlotsFilled.testBit j =
        decide (Filled l (S.currentAslot - j)) := by
      intro j hj
      cases j with
      | zero =>
        rw [testBit_recordSlot_zero, eq_comm, decide_eq_true_iff]
        simpa using hhead
      | succ j => simpa [testBit_recordSlot_succ hj] using hbits j (by omega)
    rw [hreg, hfirst (i - m) (by omega)]
    by_cases hmi : m ≤ i
    · have hslots : ((S.updateGlobalDynamicData t).currentAslot : Int) - (i + 1) =
          S.currentAslot - ((i - m : Nat) : Int) := by omega
      rw [decide_eq_true hmi, Bool.true_and, decide_eq_decide, hslots, filled_cons]
      exact (or_iff_right (by omega)).symm
    · rw [decide_eq_false hmi, Bool.false_and, eq_comm, decide_eq_false_iff_not, filled_cons]
      rintro (h | h | ⟨A, hA, h⟩)
      · omega
      · omega
      · have := hle A hA
        omega

/-- The count is that of the last 128 slots just when the slot before those was filled. -/
theorem participationCount_eq_iff (h : Accepted α S l) : S.participationCount =
        ((Finset.range 128).filter fun i => Filled l (S.currentAslot - (i : Nat))).card ↔
      Filled l (S.currentAslot - 128) := by
  obtain ⟨hcount, hhead, hbits⟩ := h.register
  let F : Nat → Int := fun i => (decide (Filled l (S.currentAslot - (i : Nat)))).toNat
  have hlate : S.participationCount = ∑ i ∈ range 128, F (i + 1) := by
    rw [hcount, bitCount]
    refine sum_congr rfl fun i hi => ?_
    rw [hbits i (mem_range.mp hi)]
    simp [F]
  have hwindow : (((range 128).filter fun i =>
      Filled l (S.currentAslot - (i : Nat))).card : Int) = ∑ i ∈ range 128, F i := by
    rw [card_filter]
    push_cast
    refine sum_congr rfl fun i _ => ?_
    by_cases hi : Filled l (S.currentAslot - (i : Nat)) <;> simp [F, hi]
  -- the two sums are parts of the same sum over 129 slots
  have hboth : ∑ i ∈ range 128, F (i + 1) + F 0 = ∑ i ∈ range 128, F i + F 128 := by
    rw [← sum_range_succ', sum_range_succ]
  have hzero : F 0 = 1 := by simp [F, hhead]
  have hlast : F 128 = 1 ↔ Filled l (S.currentAslot - 128) := by
    by_cases hi : Filled l (S.currentAslot - 128) <;> simp [F, hi]
  rw [hlate, hwindow, ← hlast]
  omega

end Register

/-- Slots 2, 5 and 130 are filled: of the last 128 slots, those from 3 on, two are. -/
theorem participationCount_eq_afterGaps : ∃ S l, Accepted Unit S l ∧
    l.map Properties.currentAslot = [130, 5, 2] ∧ S.participationCount = 2 ∧
    S.participationCount =
      ((Finset.range 128).filter fun i => Filled l (S.currentAslot - (i : Nat))).card := by
  have h2 : Accepted Unit _ [_] := .push (t := genesisTime + 3 * 2) .genesis (by decide)
    (rfl : pushBlock [()] () _ _ = _)
  have h5 : Accepted Unit _ [_, _] := .push (t := genesisTime + 3 * 5) h2 (by decide)
    (rfl : pushBlock [()] () _ _ = _)
  have h130 : Accepted Unit _ [_, _, _] := .push (t := genesisTime + 3 * 130) h5 (by decide)
    (rfl : pushBlock [()] () _ _ = _)
  exact ⟨_, _, h130, by decide, by decide +kernel,
    (participationCount_eq_iff h130).mpr (by decide +kernel)⟩

/-- After 128 missed slots the block itself is not counted. -/
theorem participationCount_zero : ∃ S, Accepted Unit S [S] ∧ Filled [S] S.currentAslot ∧
    S.participationCount = 0 :=
  ⟨_, .push (t := genesisTime + 3 * 129) .genesis (by decide)
    (rfl : pushBlock [()] () _ _ = _), .inr ⟨_, List.mem_cons_self, rfl⟩, by decide +kernel⟩

end Freezone.Chain.Slots
