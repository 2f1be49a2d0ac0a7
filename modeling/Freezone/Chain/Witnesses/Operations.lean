import Freezone.Chain.Witnesses.Effects

/-!
# What the other steps do

The operations of witnesses change one witness or create one, and leave votes and
laps alone. Hardforks are applied one at a time; what each of them keeps is kept by
the loops that apply them.
-/

namespace Freezone.Chain.Witnesses

open Protocol Table Witness
open Funds (AccountName numHardforks)

/-- The subsidy parameters that a witness votes for. -/
def Witness.subsidyParams (w : Witness) : RdUserParams :=
  ⟨w.props.accountSubsidyBudget, w.props.accountSubsidyDecay⟩

/-- The subsidy parameters of a witness are within their bounds. -/
def Witness.Valid (w : Witness) : Prop := rdValidateUserParams w.subsidyParams = .ok ()

/-- What an operation leaves alone in a witness. -/
structure Witness.Stays (w w' : Witness) : Prop where
  votes : w'.votes = w.votes
  lap : w.SameLap w'
  valid : w.Valid → w'.Valid

/-- A witness that was just created. -/
structure Witness.Fresh (w : Witness) : Prop where
  votes : w.votes = 0
  lastUpdate : w.virtualLastUpdate = 0
  position : w.virtualPosition = 0
  scheduledTime : w.virtualScheduledTime = BitVec.allOnes 128
  valid : w.Valid

theorem Witness.Stays.refl (w : Witness) : w.Stays w := ⟨rfl, .refl w, fun h => h⟩

namespace Council

variable {S S' : Council} {owner : AccountName} {w w' : Witness}

/-- One for a witness in the mining queue. -/
def mines (w : Witness) : Int := if 0 < w.powWorker then 1 else 0

/-- The number of witnesses beyond those in the mining queue that the counter counts. -/
def queueExcess (S : Council) : Int := S.numPowWitnesses - S.witnesses.total mines

/-- What the operations of witnesses do. -/
structure Edits (S S' : Council) : Prop where
  wso : S'.wso = S.wso
  ballots : S'.ballots = S.ballots
  processedHardforks : S'.processedHardforks = S.processedHardforks
  lastHardfork : S'.lastHardfork = S.lastHardfork
  currentHardforkVersion : S'.currentHardforkVersion = S.currentHardforkVersion
  nextHardfork : S'.nextHardfork = S.nextHardfork
  nextHardforkTime : S'.nextHardforkTime = S.nextHardforkTime
  hardforkOperations : S'.hardforkOperations = S.hardforkOperations
  shares : S.totalVestingShares < 2 ^ 63 → S'.totalVestingShares < 2 ^ 63
  witnesses : ∀ name w', S'.witnesses.find? name = some w' →
    (∃ w, S.witnesses.find? name = some w ∧ w.Stays w') ∨
      S.witnesses.find? name = none ∧ w'.Fresh
  known : ∀ name w, S.witnesses.find? name = some w → ∃ w', S'.witnesses.find? name = some w'
  queue : S'.queueExcess = S.queueExcess

theorem edits_of_witnesses_eq (hw : S'.witnesses = S.witnesses) (hwso : S'.wso = S.wso)
    (hballots : S'.ballots = S.ballots) (hprocessed : S'.processedHardforks = S.processedHardforks)
    (hlast : S'.lastHardfork = S.lastHardfork)
    (hcurrent : S'.currentHardforkVersion = S.currentHardforkVersion)
    (hnext : S'.nextHardfork = S.nextHardfork) (htime : S'.nextHardforkTime = S.nextHardforkTime)
    (hops : S'.hardforkOperations = S.hardforkOperations)
    (hshares : S.totalVestingShares < 2 ^ 63 → S'.totalVestingShares < 2 ^ 63)
    (hpow : S'.numPowWitnesses = S.numPowWitnesses) : S.Edits S' where
  wso := hwso
  ballots := hballots
  processedHardforks := hprocessed
  lastHardfork := hlast
  currentHardforkVersion := hcurrent
  nextHardfork := hnext
  nextHardforkTime := htime
  hardforkOperations := hops
  shares := hshares
  witnesses name w' h := Or.inl ⟨w', by rw [← hw]; exact h, .refl w'⟩
  known name w h := ⟨w, by rw [hw]; exact h⟩
  queue := by rw [queueExcess, queueExcess, hw, hpow]

theorem Edits.refl (S : Council) : S.Edits S :=
  edits_of_witnesses_eq rfl rfl rfl rfl rfl rfl rfl rfl rfl id rfl

/-- A change of one witness that leaves its schedule alone. -/
theorem related_set_stays (hw : S.witnesses.find? owner = some w) (hstays : w.Stays w') :
    Table.Related (fun _ => Witness.Stays) S.witnesses (S.witnesses.set owner w') :=
  related_set hw hstays fun _ v _ => .refl v

/-- A witness changes and perhaps joins the mining queue. -/
theorem edits_setWitness (hw : S.witnesses.find? owner = some w) (hstays : w.Stays w')
    (total : Nat) {count : Nat} (hcount : (count : Int) = S.numPowWitnesses - mines w + mines w') :
    S.Edits ({ S with totalPow := total, numPowWitnesses := count }.setWitness owner w') where
  wso := rfl
  ballots := rfl
  processedHardforks := rfl
  lastHardfork := rfl
  currentHardforkVersion := rfl
  nextHardfork := rfl
  nextHardforkTime := rfl
  hardforkOperations := rfl
  shares := id
  witnesses name v h := Or.inl ((related_set_stays hw hstays).before h)
  known name v h := by
    obtain ⟨v', hv', -⟩ := (related_set_stays hw hstays).after h
    exact ⟨v', hv'⟩
  queue := by
    simp only [queueExcess, setWitness, total_set hw]
    omega

/-- A witness changes outside the mining queue. -/
theorem edits_setWitness_same (hw : S.witnesses.find? owner = some w) (hstays : w.Stays w')
    (hpow : w'.powWorker = w.powWorker) : S.Edits (S.setWitness owner w') := by
  have hcount : (S.numPowWitnesses : Int) = S.numPowWitnesses - mines w + mines w' := by
    rw [mines, mines, hpow]
    omega
  have hedits := edits_setWitness hw hstays S.totalPow hcount
  exact hedits

/-- A witness is created and perhaps joins the mining queue. -/
theorem edits_createWitness (hfresh : ∀ id, ({ w with id := id } : Witness).Fresh)
    (total : Nat) {count : Nat} (hcount : (count : Int) = S.numPowWitnesses + mines w)
    (h : { S with totalPow := total, numPowWitnesses := count }.createWitness owner w = .ok S') :
    S.Edits S' := by
  simp only [createWitness, returns] at h
  obtain ⟨witnesses, hinsert, rfl⟩ := h
  have hnew := (insert_eq_some.mp hinsert).1
  refine ⟨rfl, rfl, rfl, rfl, rfl, rfl, rfl, rfl, id, ?_, ?_, ?_⟩
  · intro name v hv
    rw [find?_insert hinsert] at hv
    split_ifs at hv with hname
    · rw [Option.some.injEq] at hv
      exact .inr ⟨hname ▸ hnew, hv ▸ hfresh _⟩
    · exact .inl ⟨v, hv, .refl v⟩
  · intro name v hv
    refine ⟨v, ?_⟩
    rw [find?_insert hinsert, if_neg]
    · exact hv
    · rintro rfl
      rw [hnew] at hv
      cases hv
  · simp only [queueExcess, total_insert hinsert, mines] at hcount ⊢
    omega

theorem valid_default (id : Nat) : ({ id := id } : Witness).Valid :=
  rdValidateUserParams_eq_ok.mpr (show rdMinBudget ≤ 797 ∧ (797 : Int) ≤ rdMaxBudget ∧
    rdMinDecay ≤ 347321 ∧ 347321 ≤ rdMaxDecay by decide)

variable {key : Option PublicKey} {P : Council → Prop}

/-- An update leaves the schedule alone. -/
theorem edits_witnessUpdate {props : LegacyChainProperties}
    (h : S.witnessUpdate owner key props = .ok S') : S.Edits S' := by
  simp only [witnessUpdate, returns, exists_const] at h
  obtain ⟨-, -, -, -, h⟩ := h
  split at h
  · rename_i w hw
    cases h
    exact edits_setWitness_same hw ⟨rfl, ⟨rfl, rfl, rfl⟩, fun h => h⟩ rfl
  · refine edits_createWitness (fun id => ⟨rfl, rfl, rfl, rfl, valid_default id⟩) S.totalPow ?_ h
    simp [mines, copyLegacyChainProperties]

theorem edits_pow {props : LegacyChainProperties}
    (h : S.pow owner key props = .ok S') : S.Edits S' := by
  simp only [pow, returns, exists_const] at h
  obtain ⟨-, -, -, h⟩ := h
  split at h
  · rename_i w hw
    simp only [returns, exists_const] at h
    obtain ⟨hpow, rfl⟩ := h
    have hstays : w.Stays { copyLegacyChainProperties props w with powWorker := S.totalPow + 1 } :=
      ⟨rfl, ⟨rfl, rfl, rfl⟩, fun h => h⟩
    exact edits_setWitness hw hstays _ (by simp [mines, hpow])
  · refine edits_createWitness (fun id => ⟨rfl, rfl, rfl, rfl, valid_default id⟩) _ ?_ h
    simp [mines]

theorem edits_witnessSetProperties {c : PropertyChanges}
    (h : S.witnessSetProperties owner key c = .ok S') : S.Edits S' := by
  simp only [witnessSetProperties, validateChanges, returns, exists_const, getWitness_eq_ok] at h
  obtain ⟨⟨-, -, -, hmin, hmax, hlow, hhigh⟩, -, w, hw, -, -, rfl⟩ := h
  refine edits_setWitness_same hw ⟨rfl, ⟨rfl, rfl, rfl⟩, ?_⟩ rfl
  intro hvalid
  obtain ⟨h1, h2, h3, h4⟩ := rdValidateUserParams_eq_ok.mp hvalid
  refine rdValidateUserParams_eq_ok.mpr ⟨?_, ?_, ?_, ?_⟩
  · cases hb : c.accountSubsidyBudget with
    | none => simpa [subsidyParams, applyChanges, hb] using h1
    | some budget => simpa [subsidyParams, applyChanges, hb] using hmin budget hb
  · cases hb : c.accountSubsidyBudget with
    | none => simpa [subsidyParams, applyChanges, hb] using h2
    | some budget => simpa [subsidyParams, applyChanges, hb] using hmax budget hb
  · cases hd : c.accountSubsidyDecay with
    | none => simpa [subsidyParams, applyChanges, hd] using h3
    | some decay => simpa [subsidyParams, applyChanges, hd] using hlow decay hd
  · cases hd : c.accountSubsidyDecay with
    | none => simpa [subsidyParams, applyChanges, hd] using h4
    | some decay => simpa [subsidyParams, applyChanges, hd] using hhigh decay hd

theorem edits_processSubsidizedAccounts (h : S.processSubsidizedAccounts owner = .ok S') :
    S.Edits S' := by
  simp only [processSubsidizedAccounts, returns, getWitness_eq_ok] at h
  obtain ⟨w, hw, h⟩ := h
  split at h
  · cases h
    exact edits_setWitness_same hw ⟨rfl, ⟨rfl, rfl, rfl⟩, fun h => h⟩ rfl
  · cases h
    exact .refl S

/-- The ways in which a step that returns changes the council. -/
inductive StepEffect (step : WitnessStep) (S S' : Council) : Prop
  | edits (h : S.Edits S')
  | ballot (voter name : AccountName) (weight : Nat) (h : S.changeBallot voter name weight = .ok S')
  | round (hstep : step = .updateWitnessSchedule) (h : S.updateWitnessSchedule = .ok S')
  | hardforks (h : S.processHardforks = .ok S')
  | firstBlock (timestamp : Nat) (h : S.genesisHardforks timestamp = .ok S')

/-- Every step has one of the effects. -/
theorem stepEffect_of_apply {step : WitnessStep} (h : S.apply step = .ok S') :
    StepEffect step S S' := by
  cases step with
  | witnessUpdate => exact .edits (edits_witnessUpdate h)
  | witnessSetProperties => exact .edits (edits_witnessSetProperties h)
  | pow => exact .edits (edits_pow h)
  | reportVersion =>
    simp only [apply, reportVersion, returns, getWitness_eq_ok] at h
    obtain ⟨w, hw, rfl⟩ := h
    exact .edits (edits_setWitness_same hw ⟨rfl, ⟨rfl, rfl, rfl⟩, fun h => h⟩ rfl)
  | voteHardfork =>
    simp only [apply, voteHardfork, returns, getWitness_eq_ok] at h
    obtain ⟨w, hw, rfl⟩ := h
    exact .edits (edits_setWitness_same hw ⟨rfl, ⟨rfl, rfl, rfl⟩, fun h => h⟩ rfl)
  | shutdownWitness =>
    simp only [apply, shutdownWitness, returns, getWitness_eq_ok, exists_const] at h
    obtain ⟨-, w, hw, rfl⟩ := h
    exact .edits (edits_setWitness_same hw ⟨rfl, ⟨rfl, rfl, rfl⟩, fun h => h⟩ rfl)
  | processSubsidizedAccounts => exact .edits (edits_processSubsidizedAccounts h)
  | claimAccount =>
    simp only [apply, claimAccount, returns, getWitness_eq_ok, exists_const] at h
    obtain ⟨-, w, hw, -, -, rfl⟩ := h
    exact .edits (edits_setWitness_same hw ⟨rfl, ⟨rfl, rfl, rfl⟩, fun h => h⟩ rfl)
  | changeBallot voter name weight => exact .ballot voter name weight h
  | setTotalVestingShares =>
    simp only [apply, returns, exists_const] at h
    obtain ⟨htotal, rfl⟩ := h
    exact .edits (edits_of_witnesses_eq rfl rfl rfl rfl rfl rfl rfl rfl rfl (fun _ => htotal) rfl)
  | advance =>
    simp only [apply, returns, exists_const] at h
    obtain ⟨-, rfl⟩ := h
    exact .edits (edits_of_witnesses_eq rfl rfl rfl rfl rfl rfl rfl rfl rfl id rfl)
  | updateWitnessSchedule => exact .round rfl h
  | processHardforks => exact .hardforks h
  | genesisHardforks timestamp => exact .firstBlock timestamp h

/-- What every step that returns keeps holds after every run. -/
theorem run_invariant
    (hstep : ∀ step S S', P S → StepEffect step S S' → P S') (steps : List WitnessStep) (hS : P S) :
    P (S.run steps) := by
  induction steps generalizing S with
  | nil => exact hS
  | cons step steps ih =>
    refine ih (S := S.afterStep step) ?_
    unfold afterStep
    split
    · rename_i S' h
      exact hstep step S S' hS (stepEffect_of_apply h)
    · exact hS

/-! ### Hardforks -/

/-- What each hardfork that is due keeps, the loop keeps. -/
theorem applyVotedHardforks_invariant
    (happly : ∀ S S', P S → S.HardforkDue → S.applyHardfork (S.lastHardfork + 1) = .ok S' → P S')
    {left : Nat} (hS : P S) (h : applyVotedHardforks left S = .ok S') : P S' := by
  induction left generalizing S with
  | zero =>
    rw [applyVotedHardforks] at h
    split at h
    · cases h
    · exact Except.ok.inj h ▸ hS
  | succ left ih =>
    rw [applyVotedHardforks] at h
    split_ifs at h with hdue
    · simp only [returns] at h
      obtain ⟨S1, h1, h⟩ := h
      exact ih (happly S S1 hS hdue h1) h
    · exact Except.ok.inj h ▸ hS

/-- What each early hardfork keeps, the loop keeps. -/
theorem applyTimedHardforks_invariant (happly : ∀ S S', P S → S.lastHardfork < 5 →
      S.applyHardfork (S.lastHardfork + 1) = .ok S' → P S')
    {left : Nat} (hS : P S) (h : applyTimedHardforks left S = .ok S') : P S' := by
  induction left generalizing S with
  | zero => exact Except.ok.inj h ▸ hS
  | succ left ih =>
    rw [applyTimedHardforks] at h
    split_ifs at h with hearly
    · simp only [returns] at h
      obtain ⟨S1, h1, h⟩ := h
      exact ih (happly S S1 hS hearly.2 h1) h
    · exact Except.ok.inj h ▸ hS

/-- What each hardfork keeps, the processing keeps. -/
theorem processHardforks_invariant
    (happly : ∀ S S', P S → S.applyHardfork (S.lastHardfork + 1) = .ok S' → P S')
    (hS : P S) (h : S.processHardforks = .ok S') : P S' := by
  unfold processHardforks at h
  split at h
  · exact applyVotedHardforks_invariant (fun T T' hT _ => happly T T' hT) hS h
  · exact applyTimedHardforks_invariant (fun T T' hT _ => happly T T' hT) hS h

/-- The witnesses as voters for the hardforks of the first block. -/
def voteForAll (n time : Nat) (w : Witness) : Witness :=
  { w with
    runningVersion := hardforkVersion n * 2 ^ 16
    hardforkVersionVote := hardforkVersion n
    hardforkTimeVote := time }

/-- What a forced hardfork and the vote for it keep, the genesis keeps. -/
theorem genesisHardforks_invariant (happly : ∀ n S S', P S → S.setHardfork n = .ok S' → P S')
    (hvote : ∀ S n time, P S → P { S with witnesses := S.witnesses.map (voteForAll n time) })
    {timestamp : Nat} (hS : P S) (h : S.genesisHardforks timestamp = .ok S') : P S' := by
  simp only [genesisHardforks, returns, exists_const] at h
  obtain ⟨-, h⟩ := h
  split at h
  · simp only [applyGenesisHardforks, returns, exists_const] at h
    obtain ⟨S1, h1, -, rfl⟩ := h
    exact hvote S1 _ _ (forEach_invariant (fun n _ S S' hP h => happly n S S' hP h) hS h1)
  · exact Except.ok.inj h ▸ hS

end Council

end Freezone.Chain.Witnesses
