import Freezone.Chain.Ledger.NullAccount

/-!
# What happens to an escrow

The life of one escrow as a machine of its own: the steps that its state allows,
the events each of them leaves and the state after it. Every operation of the
ledger on an escrow that is open makes one of these steps, and conserves.
-/

namespace Freezone.Chain.Funds

open Protocol Table

namespace Escrow

/-- Both the receiver and the agent have approved. -/
def IsApproved (e : Escrow) : Prop := e.toApproved = true ∧ e.agentApproved = true

instance (e : Escrow) : Decidable e.IsApproved := inferInstanceAs (Decidable (_ ∧ _))

/-- The escrow with the approval of a party. -/
def approvedBy (who : AccountName) (e : Escrow) : Escrow :=
  { e with
    toApproved := e.toApproved || decide (who = e.toAccount)
    agentApproved := e.agentApproved || decide (who = e.agent) }

/-- A party that has not approved yet. -/
def MayApprove (who : AccountName) (e : Escrow) : Prop :=
  (who = e.toAccount ∨ who = e.agent) ∧ (who = e.toAccount → e.toApproved = false) ∧
    (who = e.agent → e.agentApproved = false)

/-- The events of a refund to the sender. -/
def refunds (sender : AccountName) (e : Escrow) : List EscrowEvent :=
  [.refunded sender ⟨e.freezoneBalance, .freezone⟩, .refunded sender ⟨e.sbdBalance, .sbd⟩,
    .refunded sender e.pendingFee]

/-- What is left after a release, if anything. -/
def released (freezone sbd : Int) (e : Escrow) : Option Escrow :=
  if e.freezoneBalance - freezone = 0 ∧ e.sbdBalance - sbd = 0 then none
  else some { e with
    freezoneBalance := e.freezoneBalance - freezone
    sbdBalance := e.sbdBalance - sbd }

end Escrow

/-- The steps of an escrow of a sender, with their events and what is left of it. -/
inductive EscrowStep (sender : AccountName) (e : Escrow) : List EscrowEvent → Option Escrow → Prop
  | approve (who : AccountName) (hwho : e.MayApprove who) (h : ¬ (e.approvedBy who).IsApproved) :
      EscrowStep sender e [.approved who] (some (e.approvedBy who))
  | ratify (who : AccountName) (hwho : e.MayApprove who) (h : (e.approvedBy who).IsApproved) :
      EscrowStep sender e [.approved who, .feePaid e.agent e.pendingFee]
        (some { e.approvedBy who with pendingFee := ⟨0, e.pendingFee.symbol⟩ })
  | reject (who : AccountName) (hwho : e.MayApprove who) :
      EscrowStep sender e (.rejected who :: e.refunds sender) none
  | expire (h : ¬ e.IsApproved) : EscrowStep sender e (.expired :: e.refunds sender) none
  | dispute (who : AccountName) (h : e.IsApproved) (hnew : e.disputed = false) :
      EscrowStep sender e [.disputed who] (some { e with disputed := true })
  | release (who receiver : AccountName) (freezone sbd : Int) (h : e.IsApproved)
      (hagent : e.disputed = true → who = e.agent) :
      EscrowStep sender e [.released who receiver ⟨freezone, .freezone⟩,
        .released who receiver ⟨sbd, .sbd⟩] (e.released freezone sbd)

namespace Ledger

variable {L L' L'' : Ledger} {key : EscrowKey} {e : Escrow}

/-- The table of the escrows changes. -/
theorem drifts_escrows {δ : Book → Int} {t : Table EscrowKey Escrow}
    (ht : ∀ b, t.total (·.entry b) = L.escrows.total (·.entry b) + δ b)
    (hn : L.NonNegative → t.Holds Escrow.NonNegative) : Drifts δ L { L with escrows := t } where
  gap b := by
    simp only [gap, held, ht]
    ring
  nonneg hL := { hL with escrows := hn hL }
  init := rfl
  toGrows := ⟨rfl, subset_rfl, rfl, le_rfl⟩

theorem getEscrow_eq_ok : L.getEscrow key = .ok e ↔ L.escrows.find? key = some e := orThrow_eq_ok

/-- Put back what is left of an escrow. -/
def replaceEscrow (key : EscrowKey) (e' : Option Escrow) (L : Ledger) : Table EscrowKey Escrow :=
  match e' with
  | some e' => L.escrows.set key e'
  | none => L.escrows.erase key

/-- An escrow makes a step: its events are added to the record, and what is left of it is put
back. -/
structure Advances (key : EscrowKey) (e : Escrow) (L L' : Ledger) : Prop where
  found : L.escrows.find? key = some e
  step : ∃ new e', EscrowStep key.1 e new e' ∧ L'.escrows = L.replaceEscrow key e' ∧
    L'.escrowLog = L.escrowLog ++ new.map (Prod.mk e.id)
  nextEscrowId : L'.nextEscrowId = L.nextEscrowId

/-- A payment from an escrow to an account, which the escrow still holds. -/
theorem payEscrow_spec {id : Nat} {receiver : AccountName} {amount : Asset Liquid}
    {event : EscrowEvent} (h : L.payEscrow id receiver amount event = .ok L') :
    Drifts (liquidEntry amount) L L' ∧ L'.escrows = L.escrows ∧
      L'.escrowLog = L.escrowLog ++ [(id, event)] ∧ L'.nextEscrowId = L.nextEscrowId := by
  simp only [payEscrow, returns] at h
  obtain ⟨L1, h1, rfl⟩ := h
  have hm := adjustBalance_moves h1
  refine ⟨⟨⟨hm.gap, fun hL => { hm.nonneg hL with }, hm.init⟩,
    hm.toGrows.trans ⟨rfl, subset_rfl, rfl, le_rfl⟩⟩, hm.escrows, ?_, hm.nextEscrowId⟩
  rw [logEscrow, hm.escrowLog]

/-- The refund ends an escrow and logs what it paid back. -/
theorem refundEscrow_spec (h : L.refundEscrow key e = .ok L') (he : L.escrows.find? key = some e) :
    Drifts (fun _ => 0) L L' ∧ L'.escrows = L.escrows.erase key ∧
      L'.escrowLog = L.escrowLog ++ (e.refunds key.1).map (Prod.mk e.id) ∧
      L'.nextEscrowId = L.nextEscrowId := by
  simp only [refundEscrow, returns] at h
  obtain ⟨L1, h1, L2, h2, L3, h3, rfl⟩ := h
  obtain ⟨hs1, he1, hl1, hi1⟩ := payEscrow_spec h1
  obtain ⟨hs2, he2, hl2, hi2⟩ := payEscrow_spec h2
  obtain ⟨hs3, he3, hl3, hi3⟩ := payEscrow_spec h3
  have hsame : L3.escrows = L.escrows := by rw [he3, he2, he1]
  refine ⟨?_, by rw [hsame], ?_, by rw [hi3, hi2, hi1]⟩
  · refine (((hs1.trans hs2).trans hs3).trans (drifts_escrows
      (fun b => total_erase (hsame ▸ he) _) fun hL => hL.escrows.erase key)).congr fun b => ?_
    cases b <;> simp [Escrow.entry, liquidEntry, bookOf, only]
  · rw [hl3, hl2, hl1]
    simp [Escrow.refunds]

/-- An escrow takes its amounts from the sender. -/
theorem escrowTransfer_spec {o : EscrowTransfer} (h : L.escrowTransfer o = .ok L') :
    Drifts (fun _ => 0) L L' ∧ o.toAccount ≠ o.agent ∧
      L.escrows.insert (o.fromAccount, o.escrowId) {
        id := L.nextEscrowId
        toAccount := o.toAccount
        agent := o.agent
        ratificationDeadline := o.ratificationDeadline
        escrowExpiration := o.escrowExpiration
        sbdBalance := o.sbdAmount
        freezoneBalance := o.freezoneAmount
        pendingFee := o.fee } = some L'.escrows ∧
      L'.escrowLog = L.escrowLog ++ [(L.nextEscrowId,
        .deposited o.fromAccount o.toAccount o.agent o.freezoneAmount o.sbdAmount o.fee)] ∧
      L'.nextEscrowId = L.nextEscrowId + 1 := by
  simp only [escrowTransfer, returns] at h
  obtain ⟨-, hfee, -, hsbd, -, hfreezone, -, -, -, hthird, -, -, -, -, -, -, -, -, -, -, L1, h1,
    L2, h2, escrows, hins, rfl⟩ := h
  have hm := (adjustBalance_moves h1).trans (adjustBalance_moves h2)
  have hput : Drifts (fun b => only .freezone o.freezoneAmount b + only .sbd o.sbdAmount b +
      liquidEntry o.fee b) L2 { L2 with escrows := escrows } :=
    drifts_escrows (fun b => total_insert hins _) fun hL =>
      hL.escrows.insert hins ⟨hfreezone, hsbd, hfee⟩
  have hboth : Drifts (fun _ => 0) L { L2 with escrows := escrows } :=
      (hm.drifts.trans hput).congr fun b => by
    obtain ⟨d, s⟩ := o.fee
    cases s <;> cases b <;> simp [liquidEntry, bookOf, only, Asset.part]
  refine ⟨⟨⟨hboth.gap, fun hL => { hboth.nonneg hL with }, hboth.init⟩,
    hboth.toGrows.trans ⟨rfl, subset_rfl, rfl, le_rfl⟩⟩, hthird.2, ?_, ?_, ?_⟩
  · rw [← hm.escrows, ← hm.nextEscrowId]
    exact hins
  · rw [logEscrow, ← hm.escrowLog, ← hm.nextEscrowId]
  · rw [logEscrow, ← hm.nextEscrowId]

theorem drifts_log (id : Nat) (event : EscrowEvent) (L : Ledger) :
    Drifts (fun _ => 0) L (L.logEscrow id event) :=
  ⟨⟨fun _ => (add_zero _).symm, fun hL => { hL with }, rfl⟩, rfl, subset_rfl, rfl, le_rfl⟩

/-- An escrow that holds the same. -/
theorem drifts_setEscrow {e' : Escrow} (he : L.escrows.find? key = some e)
    (hentry : ∀ b, e'.entry b = e.entry b) (hn : e.NonNegative → e'.NonNegative) :
    Drifts (fun _ => 0) L (L.setEscrow key e') :=
  drifts_escrows (fun b => by rw [total_set he, hentry]; ring)
    fun hL => hL.escrows.set key (hn (hL.escrows _ _ he))

/-- An approval advances one escrow. -/
theorem escrowApprove_spec {o : EscrowApprove} (h : L.escrowApprove o = .ok L') :
    Drifts (fun _ => 0) L L' ∧ ∃ e, Advances (o.fromAccount, o.escrowId) e L L' := by
  simp only [escrowApprove, returns, getEscrow_eq_ok] at h
  obtain ⟨-, hwho, e, he, -, hto, -, hagent, -, -, -, hto', -, hagent', h⟩ := h
  rw [← hto, ← hagent] at hwho
  rw [← hto] at hto'
  rw [← hagent] at hagent'
  have hmay : e.MayApprove o.who := ⟨hwho, hto', hagent'⟩
  split at h
  · rw [← hto, ← hagent] at h
    have hset : Drifts (fun _ => 0) L (L.setEscrow (o.fromAccount, o.escrowId)
        (e.approvedBy o.who)) := drifts_setEscrow he (fun _ => rfl) fun hn => { hn with }
    split_ifs at h with hboth
    · simp only [returns] at h
      obtain ⟨L1, h1, rfl⟩ := h
      obtain ⟨hs1, he1, hl1, hi1⟩ := payEscrow_spec h1
      have hfind : L1.escrows.find? (o.fromAccount, o.escrowId) = some (e.approvedBy o.who) := by
        rw [he1]
        exact find?_set_self he
      have hpaid : Drifts (fun b => -liquidEntry e.pendingFee b) L1 (L1.setEscrow
          (o.fromAccount, o.escrowId)
          { e.approvedBy o.who with pendingFee := ⟨0, e.pendingFee.symbol⟩ }) := by
        refine drifts_escrows (fun b => ?_) fun hL => hL.escrows.set _
          { hL.escrows _ _ hfind with pendingFee := le_rfl }
        rw [total_set hfind]
        simp only [Escrow.entry, Escrow.approvedBy, liquidEntry, only_zero]
        ring
      refine ⟨?_, e, he, ?_, hi1⟩
      · refine (((hset.trans (drifts_log _ _ _)).trans hs1).trans hpaid).congr fun b => ?_
        simp only [add_zero, zero_add]
        exact add_neg_cancel _
      · refine ⟨_, _, .ratify o.who hmay hboth, ?_, ?_⟩
        · rw [setEscrow, he1]
          exact set_set _ _ _ _
        · rw [setEscrow, hl1]
          simp [logEscrow, setEscrow]
    · cases h
      refine ⟨(hset.trans (drifts_log _ _ _)).congr fun _ => add_zero 0, e, he, ?_, rfl⟩
      exact ⟨_, _, .approve o.who hmay hboth, rfl, rfl⟩
  · obtain ⟨hs, herase, hlog, hid⟩ := refundEscrow_spec h he
    refine ⟨((drifts_log _ _ _).trans hs).congr fun _ => add_zero 0, e, he, ?_, hid⟩
    refine ⟨_, _, .reject o.who hmay, herase, ?_⟩
    rw [hlog, logEscrow]
    simp

/-- A dispute advances one escrow. -/
theorem escrowDispute_spec {o : EscrowDispute} (h : L.escrowDispute o = .ok L') :
    Drifts (fun _ => 0) L L' ∧ ∃ e, Advances (o.fromAccount, o.escrowId) e L L' := by
  simp only [escrowDispute, returns, getEscrow_eq_ok] at h
  obtain ⟨-, -, -, -, e, he, -, -, -, hboth, -, hnew, -, -, -, -, rfl⟩ := h
  have hset : Drifts (fun _ => 0) L (L.setEscrow (o.fromAccount, o.escrowId)
      { e with disputed := true }) := drifts_setEscrow he (fun _ => rfl) fun hn => { hn with }
  refine ⟨(hset.trans (drifts_log _ _ _)).congr fun _ => add_zero 0, e, he, ?_, rfl⟩
  exact ⟨_, _, .dispute o.who hboth hnew, rfl, rfl⟩

/-- A release conserves once the fee has been paid. -/
theorem escrowRelease_spec {o : EscrowRelease} (h : L.escrowRelease o = .ok L') :
    Grows L L' ∧ ∃ e, Advances (o.fromAccount, o.escrowId) e L L' ∧ e.IsApproved ∧
      (e.pendingFee.amount = 0 → Shifts (fun _ => 0) L L') := by
  simp only [escrowRelease, returns, getEscrow_eq_ok] at h
  obtain ⟨-, -, -, -, -, -, -, hfreezone, -, -, -, -, e, he, -, hfle, -, hsle, -, -, -, -, -, -,
    -, hboth, u, hcheck, L1, h1, L2, h2, h⟩ := h
  obtain ⟨hs1, he1, hl1, hi1⟩ := payEscrow_spec h1
  obtain ⟨hs2, he2, hl2, hi2⟩ := payEscrow_spec h2
  have hsame : L2.escrows = L.escrows := he2.trans he1
  have hfind : L2.escrows.find? (o.fromAccount, o.escrowId) = some e := hsame ▸ he
  have hpaid := hs1.trans hs2
  have hstep : EscrowStep o.fromAccount e _ _ :=
    .release o.who o.receiver o.freezoneAmount o.sbdAmount hboth fun hd => by
      rwa [checkRelease, if_pos hd, ensure_eq_ok] at hcheck
  have hlog : L2.escrowLog = L.escrowLog ++ List.map (Prod.mk e.id)
      [.released o.who o.receiver ⟨o.freezoneAmount, .freezone⟩,
        .released o.who o.receiver ⟨o.sbdAmount, .sbd⟩] := by
    rw [hl2, hl1]
    simp
  unfold Escrow.released at hstep
  split_ifs at h with hempty
  · cases h
    rw [if_pos hempty] at hstep
    refine ⟨hpaid.toGrows.trans ⟨rfl, subset_rfl, rfl, le_rfl⟩, e,
      ⟨he, ⟨_, _, hstep, by rw [hsame]; rfl, hlog⟩, hi2.trans hi1⟩, hboth, fun hfee => ?_⟩
    refine (hpaid.trans (drifts_escrows (fun b => total_erase hfind _) fun hL =>
      hL.escrows.erase _)).toShifts.congr fun b => ?_
    have hf : e.freezoneBalance = o.freezoneAmount := sub_eq_zero.mp hempty.1
    have hs : e.sbdBalance = o.sbdAmount := sub_eq_zero.mp hempty.2
    simp only [Escrow.entry, hf, hs, liquidEntry, hfee, only_zero, bookOf]
    ring
  · cases h
    rw [if_neg hempty] at hstep
    refine ⟨hpaid.toGrows.trans ⟨rfl, subset_rfl, rfl, le_rfl⟩, e,
      ⟨he, ⟨_, _, hstep, by rw [setEscrow, hsame]; rfl, hlog⟩, hi2.trans hi1⟩, hboth, fun _ => ?_⟩
    have hset : Drifts (fun b => -(only .freezone o.freezoneAmount b + only .sbd o.sbdAmount b)) L2
        (L2.setEscrow (o.fromAccount, o.escrowId) { e with
          freezoneBalance := e.freezoneBalance - o.freezoneAmount
          sbdBalance := e.sbdBalance - o.sbdAmount }) := by
      refine drifts_escrows (fun b => ?_) fun hL => hL.escrows.set _ { hL.escrows _ _ hfind with
        freezoneBalance := sub_nonneg.mpr hfle
        sbdBalance := sub_nonneg.mpr hsle }
      rw [total_set hfind]
      cases b <;> simp [Escrow.entry, only] <;> ring
    refine (hpaid.trans hset).toShifts.congr fun b => ?_
    simp only [liquidEntry, bookOf]
    ring

/-- The sweep over the expired escrows is a sequence of steps. -/
theorem expireEscrow_spec {entry : EscrowKey × Escrow}
    (h : (L.logEscrow entry.2.id .expired).refundEscrow entry.1 entry.2 = .ok L')
    (he : L.escrows.find? entry.1 = some entry.2) (hnot : ¬ entry.2.IsApproved) :
    Drifts (fun _ => 0) L L' ∧ Advances entry.1 entry.2 L L' ∧
      L'.escrows = L.escrows.erase entry.1 := by
  obtain ⟨hs, herase, hlog, hid⟩ := refundEscrow_spec h he
  refine ⟨((drifts_log _ _ _).trans hs).congr fun _ => add_zero 0, ⟨he, ?_, hid⟩, herase⟩
  refine ⟨_, _, .expire hnot, herase, ?_⟩
  rw [hlog, logEscrow]
  simp

/-- Expirations of escrows conserve. -/
theorem expire_drifts (h : L.expireEscrowRatification = .ok L') : Drifts (fun _ => 0) L L' := by
  refine forEach_selection Ledger.escrows (P := Drifts (fun _ => 0) L)
    (fun entry hmem s s' hs he h => ?_) (selection_sorted _ _ _) (Steady.refl L).drifts h
  have hnot : ¬ entry.2.IsApproved := by
    have hfilter := List.of_mem_filter ((List.mem_insertionSort _).mp hmem)
    rw [decide_eq_true_eq] at hfilter
    exact hfilter.1
  obtain ⟨hshift, -, herase⟩ := expireEscrow_spec h he hnot
  exact ⟨(hs.trans hshift).congr fun _ => add_zero 0, herase⟩

end Ledger

end Freezone.Chain.Funds
