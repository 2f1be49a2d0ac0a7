import Freezone.Chain.Ledger.Steps

/-!
# The history of an escrow

The record of an escrow is one of the histories that its machine allows: it starts
with a deposit and goes on with steps. What is promised about an escrow is true of
each such history, and every run of the chain keeps the record of each escrow one.
-/

namespace Freezone.Chain.Funds

open Protocol List Table

/-- What is put into an escrow, and its parties. -/
structure Deposit where
  sender : AccountName
  receiver : AccountName
  agent : AccountName
  freezone : Int
  sbd : Int
  fee : Asset Liquid

/-- The event that opens an escrow. -/
def Deposit.event (d : Deposit) : EscrowEvent :=
  .deposited d.sender d.receiver d.agent d.freezone d.sbd d.fee

/-- All of a currency that is put into an escrow, the fee included. -/
def Deposit.amount (d : Deposit) : Liquid → Int
  | .freezone => d.freezone + d.fee.part .freezone
  | .sbd => d.sbd + d.fee.part .sbd

/-- All of a currency that an escrow holds. -/
def Escrow.holds (e : Escrow) : Liquid → Int
  | .freezone => e.freezoneBalance + e.pendingFee.part .freezone
  | .sbd => e.sbdBalance + e.pendingFee.part .sbd

/-- The payment that an event is, if it is one. -/
def EscrowEvent.payout : EscrowEvent → Option (AccountName × Asset Liquid)
  | .feePaid receiver amount => some (receiver, amount)
  | .refunded receiver amount => some (receiver, amount)
  | .released _ receiver amount => some (receiver, amount)
  | _ => none

/-- The payment of the fee that an event is, if it is one. -/
def EscrowEvent.feePayment : EscrowEvent → Option (AccountName × Asset Liquid)
  | .feePaid receiver amount => some (receiver, amount)
  | _ => none

/-- All of a currency that the events pay out. -/
def paidOut (events : List EscrowEvent) (c : Liquid) : Int :=
  ((events.filterMap EscrowEvent.payout).map fun p => p.2.part c).sum

/-- The histories of an escrow, with what is left of it. -/
inductive History (d : Deposit) : List EscrowEvent → Option Escrow → Prop
  | opened (e : Escrow) (hto : e.toAccount = d.receiver) (hagent : e.agent = d.agent)
      (hfreezone : e.freezoneBalance = d.freezone) (hsbd : e.sbdBalance = d.sbd)
      (hfee : e.pendingFee = d.fee) (happroved : e.toApproved = false ∧ e.agentApproved = false)
      (hdisputed : e.disputed = false) (hthird : d.receiver ≠ d.agent) :
      History d [d.event] (some e)
  | step {events new : List EscrowEvent} {e : Escrow} {e' : Option Escrow}
      (h : History d events (some e)) (hstep : EscrowStep d.sender e new e') :
      History d (events ++ new) e'

/-- What is promised about the events of an escrow and what is left of it: it pays out exactly what
was deposited; the agent gets the fee once if both parties have approved and not otherwise, and
after both; once rejected or expired, all payments are refunds of the deposit to the sender; and
after a dispute, only the agent releases. -/
structure FairEscrow (d : Deposit) (events : List EscrowEvent) (left : Option Escrow) : Prop where
  opened : events.head? = some d.event
  conserved : ∀ c, paidOut events c + (left.elim 0 fun e => e.holds c) = d.amount c
  fee : events.filterMap EscrowEvent.feePayment =
    if .approved d.receiver ∈ events ∧ .approved d.agent ∈ events then [(d.agent, d.fee)] else []
  feeAfter : ∀ before x after, events = before ++ x :: after → x.feePayment.isSome →
    .approved d.receiver ∈ before ∧ .approved d.agent ∈ before
  refunded : (∃ who, .rejected who ∈ events) ∨ .expired ∈ events →
    left = none ∧ events.filterMap EscrowEvent.payout =
      [(d.sender, ⟨d.freezone, .freezone⟩), (d.sender, ⟨d.sbd, .sbd⟩), (d.sender, d.fee)]
  disputed : ∀ before x after, events = before ++ x :: after → (∃ who, x = .disputed who) →
    ∀ y ∈ after, y.payout.isSome → ∃ receiver amount, y = .released d.agent receiver amount

/-- What the state of an open escrow says about its events. -/
structure OpenEscrow (d : Deposit) (events : List EscrowEvent) (e : Escrow) : Prop where
  receiver : e.toAccount = d.receiver
  agent : e.agent = d.agent
  third : d.receiver ≠ d.agent
  toApproved : e.toApproved = true ↔ .approved d.receiver ∈ events
  agentApproved : e.agentApproved = true ↔ .approved d.agent ∈ events
  untouched : ¬ e.IsApproved → events.filterMap EscrowEvent.payout = [] ∧
    e.freezoneBalance = d.freezone ∧ e.sbdBalance = d.sbd ∧ e.pendingFee = d.fee
  feePaid : e.IsApproved → e.pendingFee.amount = 0
  disputed : e.disputed = true ↔ ∃ who, .disputed who ∈ events
  ratified : e.disputed = true → e.IsApproved
  standing : (∀ who, .rejected who ∉ events) ∧ .expired ∉ events

/-- A property of every position of an appended list, from those of its parts. -/
theorem forall_split_append {α : Type} {P : List α → α → List α → Prop} {l l' : List α}
    (h : ∀ before x after, l = before ++ x :: after → P before x (after ++ l'))
    (h' : ∀ before x after, l' = before ++ x :: after → P (l ++ before) x after)
    (before : List α) (x : α) (after : List α) (heq : l ++ l' = before ++ x :: after) :
    P before x after := by
  rcases append_eq_append_iff.mp heq with ⟨mid, rfl, hl'⟩ | ⟨mid, hl, hmid⟩
  · exact h' mid x after hl'
  cases mid with
  | nil =>
    rw [append_nil] at hl
    rw [← hl]
    have := h' [] x after hmid.symm
    rwa [append_nil] at this
  | cons y mid =>
    obtain ⟨rfl, rfl⟩ := hmid
    exact h before x mid hl

theorem paidOut_append (events new : List EscrowEvent) (c : Liquid) :
    paidOut (events ++ new) c = paidOut events c + paidOut new c := by
  simp [paidOut]

namespace Escrow

variable {who : AccountName}

/-- Who may still approve finds the escrow not approved. -/
theorem MayApprove.not_isApproved {e : Escrow} (h : e.MayApprove who) : ¬ e.IsApproved := by
  rintro ⟨hto, hagent⟩
  rcases h.1 with hwho | hwho
  · rw [h.2.1 hwho] at hto
    cases hto
  · rw [h.2.2 hwho] at hagent
    cases hagent

end Escrow

namespace OpenEscrow

variable {d : Deposit} {events new : List EscrowEvent} {e : Escrow}

/-- The two approvals are in the events when the escrow is approved. -/
theorem isApproved_iff (h : OpenEscrow d events e) :
    e.IsApproved ↔ .approved d.receiver ∈ events ∧ .approved d.agent ∈ events := by
  rw [Escrow.IsApproved, h.toApproved, h.agentApproved]

/-- An approval is an event and a flag. -/
theorem approvedBy (h : OpenEscrow d events e) (who : AccountName) :
    ((e.approvedBy who).toApproved = true ↔
        .approved d.receiver ∈ events ++ [EscrowEvent.approved who]) ∧
      ((e.approvedBy who).agentApproved = true ↔
        .approved d.agent ∈ events ++ [EscrowEvent.approved who]) := by
  simp only [Escrow.approvedBy, Bool.or_eq_true, decide_eq_true_eq, h.toApproved, h.agentApproved,
    h.receiver, h.agent, mem_append, mem_singleton, EscrowEvent.approved.injEq]
  exact ⟨or_congr_right eq_comm, or_congr_right eq_comm⟩

end OpenEscrow

namespace FairEscrow

variable {d : Deposit} {events new : List EscrowEvent} {e : Escrow} {left : Option Escrow}

/-- Events that keep every promise keep them after a fair history too. -/
theorem extend (h : FairEscrow d events (some e)) (ho : OpenEscrow d events e)
    (hconserved : ∀ c, paidOut new c + (left.elim 0 fun e => e.holds c) = e.holds c)
    (hfee : new.filterMap EscrowEvent.feePayment = if ¬ e.IsApproved ∧
      .approved d.receiver ∈ events ++ new ∧ .approved d.agent ∈ events ++ new
      then [(d.agent, d.fee)] else [])
    (hfeeAfter : ∀ before x after, new = before ++ x :: after → x.feePayment.isSome →
      .approved d.receiver ∈ events ++ before ∧ .approved d.agent ∈ events ++ before)
    (hrefunded : (∃ who, .rejected who ∈ new) ∨ .expired ∈ new →
      left = none ∧ ¬ e.IsApproved ∧ new.filterMap EscrowEvent.payout =
        [(d.sender, ⟨d.freezone, .freezone⟩), (d.sender, ⟨d.sbd, .sbd⟩), (d.sender, d.fee)])
    (hlater : e.disputed = true → ∀ y ∈ new, y.payout.isSome →
      ∃ receiver amount, y = .released d.agent receiver amount)
    (hdisputed : ∀ who, .disputed who ∈ new → new = [.disputed who]) :
    FairEscrow d (events ++ new) left where
  opened := by
    rw [head?_append, h.opened]
    rfl
  conserved c := by
    have hc := h.conserved c
    simp only [Option.elim] at hc
    rw [paidOut_append, add_assoc, hconserved c, hc]
  fee := by
    rw [filterMap_append, h.fee, hfee]
    by_cases happroved : e.IsApproved
    · obtain ⟨hto, hagent⟩ := ho.isApproved_iff.mp happroved
      rw [if_pos ⟨hto, hagent⟩, if_neg (fun hn => hn.1 happroved), append_nil,
        if_pos ⟨mem_append_left _ hto, mem_append_left _ hagent⟩]
    · rw [if_neg (mt ho.isApproved_iff.mpr happroved), nil_append]
      simp only [happroved, not_false_eq_true, true_and]
  feeAfter := by
    apply forall_split_append
    · exact h.feeAfter
    · exact hfeeAfter
  refunded hany := by
    have hnew : (∃ who, .rejected who ∈ new) ∨ .expired ∈ new := by
      rcases hany with ⟨who, hwho⟩ | hexpired
      · exact .inl ⟨who, (mem_append.mp hwho).resolve_left (ho.standing.1 who)⟩
      · exact .inr ((mem_append.mp hexpired).resolve_left ho.standing.2)
    obtain ⟨hleft, hnot, hpayouts⟩ := hrefunded hnew
    refine ⟨hleft, ?_⟩
    rw [filterMap_append, (ho.untouched hnot).1, hpayouts, nil_append]
  disputed := by
    apply forall_split_append
    · intro before x after heq hx y hy hpay
      rcases mem_append.mp hy with hy | hy
      · exact h.disputed before x after heq hx y hy hpay
      obtain ⟨who, rfl⟩ := hx
      have hmem : EscrowEvent.disputed who ∈ events := by
        rw [heq]
        exact mem_append_right _ mem_cons_self
      exact hlater (ho.disputed.mpr ⟨who, hmem⟩) y hy hpay
    · rintro before x after heq ⟨who, rfl⟩ y hy hpay
      have hmem : EscrowEvent.disputed who ∈ new := by
        rw [heq]
        exact mem_append_right _ mem_cons_self
      have hone := hdisputed who hmem
      rw [heq, append_eq_singleton_iff] at hone
      rcases hone with ⟨-, hcons⟩ | ⟨-, hcons⟩
      · rw [cons.injEq] at hcons
        rw [hcons.2] at hy
        cases hy
      · cases hcons

/-- A step without a payment of the fee leaves none to order. -/
theorem no_feePayment {before after : List EscrowEvent} {x : EscrowEvent}
    (h : new.filterMap EscrowEvent.feePayment = []) (heq : new = before ++ x :: after)
    (hx : x.feePayment.isSome) : False := by
  have hnone := filterMap_eq_nil_iff.mp h x (by rw [heq]; simp)
  rw [hnone] at hx
  cases hx

end FairEscrow

namespace History

variable {d : Deposit} {events new : List EscrowEvent} {e : Escrow} {left : Option Escrow}

/-- An approval that is not the last one. -/
theorem fair_approve (h : FairEscrow d events (some e)) (ho : OpenEscrow d events e)
    (hwho : e.MayApprove who) (hpart : ¬ (e.approvedBy who).IsApproved) :
    FairEscrow d (events ++ [.approved who]) (some (e.approvedBy who)) ∧
      OpenEscrow d (events ++ [.approved who]) (e.approvedBy who) := by
  obtain ⟨hto, hagent⟩ := ho.approvedBy who
  obtain ⟨hpayouts, hfreezone, hsbd, hfee⟩ := ho.untouched hwho.not_isApproved
  constructor
  · refine h.extend ho (fun c => ?_) ?_ ?_ ?_ ?_ ?_
    · exact (zero_add _).trans (by cases c <;> rfl)
    · rw [if_neg (fun hn => hpart ⟨hto.mpr hn.2.1, hagent.mpr hn.2.2⟩)]
      rfl
    · exact fun _ _ _ heq hx => (FairEscrow.no_feePayment rfl heq hx).elim
    · intro hany
      simp at hany
    · intro _ y hy hpay
      rw [mem_singleton] at hy
      rw [hy] at hpay
      cases hpay
    · intro w hw
      simp at hw
  · refine ⟨ho.receiver, ho.agent, ho.third, hto, hagent, fun _ => ?_, (absurd · hpart), ?_, ?_, ?_⟩
    · rw [filterMap_append, hpayouts]
      exact ⟨rfl, hfreezone, hsbd, hfee⟩
    · simp [Escrow.approvedBy, ho.disputed]
    · exact fun hd => absurd (ho.ratified hd) hwho.not_isApproved
    · simpa using ho.standing

/-- The last approval pays the fee. -/
theorem fair_ratify (h : FairEscrow d events (some e)) (ho : OpenEscrow d events e)
    (hwho : e.MayApprove who) (hboth : (e.approvedBy who).IsApproved) :
    FairEscrow d (events ++ [.approved who, .feePaid e.agent e.pendingFee])
        (some { e.approvedBy who with pendingFee := ⟨0, e.pendingFee.symbol⟩ }) ∧
      OpenEscrow d (events ++ [.approved who, .feePaid e.agent e.pendingFee])
        { e.approvedBy who with pendingFee := ⟨0, e.pendingFee.symbol⟩ } := by
  obtain ⟨hto, hagent⟩ := ho.approvedBy who
  obtain ⟨-, -, -, hfee⟩ := ho.untouched hwho.not_isApproved
  have happrovals := And.intro (hto.mp hboth.1) (hagent.mp hboth.2)
  have hmem : ∀ {x}, x ∈ events ++ [EscrowEvent.approved who] →
      x ∈ events ++ [.approved who, .feePaid e.agent e.pendingFee] := by
    intro x hx
    rw [append_cons]
    exact mem_append_left _ hx
  constructor
  · refine h.extend ho (fun c => ?_) ?_ ?_ ?_ ?_ ?_
    · have hpaid : paidOut [.approved who, .feePaid e.agent e.pendingFee] c =
          e.pendingFee.part c := add_zero _
      rw [hpaid]
      cases c <;> simp [Escrow.holds, Escrow.approvedBy, Asset.part] <;> ring
    · rw [if_pos ⟨hwho.not_isApproved, hmem happrovals.1, hmem happrovals.2⟩, ← ho.agent, ← hfee]
      rfl
    · intro before x after heq hx
      rcases before with _ | ⟨y, _ | ⟨z, before⟩⟩
      · simp only [nil_append, cons.injEq] at heq
        rw [← heq.1] at hx
        cases hx
      · simp only [cons_append, nil_append, cons.injEq] at heq
        rw [← heq.1]
        exact happrovals
      · simp at heq
    · intro hany
      simp at hany
    · exact fun hd => absurd (ho.ratified hd) hwho.not_isApproved
    · intro w hw
      simp at hw
  · refine ⟨ho.receiver, ho.agent, ho.third, ?_, ?_, (absurd hboth ·), fun _ =>
      rfl, ?_, fun _ => hboth,
      ?_⟩
    · exact iff_of_true hboth.1 (hmem happrovals.1)
    · exact iff_of_true hboth.2 (hmem happrovals.2)
    · simp [Escrow.approvedBy, ho.disputed]
    · simpa using ho.standing

/-- A rejection or an expiration returns the deposit. -/
theorem fair_refund (h : FairEscrow d events (some e)) (ho : OpenEscrow d events e)
    (hnot : ¬ e.IsApproved) {reason : EscrowEvent}
    (hreason : (∃ who, reason = .rejected who) ∨ reason = .expired) :
    FairEscrow d (events ++ reason :: e.refunds d.sender) none := by
  obtain ⟨-, hfreezone, hsbd, hfee⟩ := ho.untouched hnot
  have hpayouts : (reason :: e.refunds d.sender).filterMap EscrowEvent.payout =
      [(d.sender, ⟨d.freezone, .freezone⟩), (d.sender, ⟨d.sbd, .sbd⟩), (d.sender, d.fee)] := by
    rw [← hfreezone, ← hsbd, ← hfee]
    rcases hreason with ⟨who, rfl⟩ | rfl <;> rfl
  have hnofee : (reason :: e.refunds d.sender).filterMap EscrowEvent.feePayment = [] := by
    rcases hreason with ⟨who, rfl⟩ | rfl <;> rfl
  have hmem : ∀ who, .approved who ∈ events ++ reason :: e.refunds d.sender ↔
      .approved who ∈ events := by
    intro who
    rcases hreason with ⟨w, rfl⟩ | rfl <;> simp [Escrow.refunds]
  refine h.extend ho (fun c => ?_) ?_ ?_ ?_ ?_ ?_
  · have hpaid : paidOut (reason :: e.refunds d.sender) c = d.amount c := by
      rw [paidOut, hpayouts]
      cases c <;> simp [Deposit.amount, Asset.part]
    rw [hpaid]
    cases c <;> simp [Deposit.amount, Escrow.holds, hfreezone, hsbd, hfee]
  · rw [hnofee, if_neg]
    rintro ⟨-, hr, ha⟩
    exact hnot (ho.isApproved_iff.mpr ⟨(hmem _).mp hr, (hmem _).mp ha⟩)
  · exact fun _ _ _ heq hx => (FairEscrow.no_feePayment hnofee heq hx).elim
  · exact fun _ => ⟨rfl, hnot, hpayouts⟩
  · exact fun hd => absurd (ho.ratified hd) hnot
  · intro who hwho
    rcases hreason with ⟨w, rfl⟩ | rfl <;> simp [Escrow.refunds] at hwho

/-- A dispute moves nothing. -/
theorem fair_dispute (h : FairEscrow d events (some e)) (ho : OpenEscrow d events e)
    (who : AccountName) (hboth : e.IsApproved) :
    FairEscrow d (events ++ [.disputed who]) (some { e with disputed := true }) ∧
      OpenEscrow d (events ++ [.disputed who]) { e with disputed := true } := by
  constructor
  · refine h.extend ho (fun c => ?_) ?_ ?_ ?_ ?_ ?_
    · exact (zero_add _).trans (by cases c <;> rfl)
    · rw [if_neg (fun hn => hn.1 hboth)]
      rfl
    · exact fun _ _ _ heq hx => (FairEscrow.no_feePayment rfl heq hx).elim
    · intro hany
      simp at hany
    · intro _ y hy hpay
      rw [mem_singleton] at hy
      rw [hy] at hpay
      cases hpay
    · intro w hw
      rw [mem_singleton, EscrowEvent.disputed.injEq] at hw
      rw [hw]
  · refine ⟨ho.receiver, ho.agent, ho.third, ?_, ?_, (absurd hboth ·), fun _ =>
      ho.feePaid hboth, ?_,
      fun _ => hboth, ?_⟩
    · simp [ho.toApproved]
    · simp [ho.agentApproved]
    · simp
    · simpa using ho.standing

/-- A release pays what the escrow gives up. -/
theorem fair_release (h : FairEscrow d events (some e)) (ho : OpenEscrow d events e)
    (who receiver : AccountName) (freezone sbd : Int) (hboth : e.IsApproved)
    (hagent : e.disputed = true → who = e.agent) :
    FairEscrow d (events ++ [.released who receiver ⟨freezone, .freezone⟩,
        .released who receiver ⟨sbd, .sbd⟩]) (e.released freezone sbd) ∧
      ∀ e', e.released freezone sbd = some e' →
        OpenEscrow d (events ++ [.released who receiver ⟨freezone, .freezone⟩,
          .released who receiver ⟨sbd, .sbd⟩]) e' := by
  have hfee : ∀ c, e.pendingFee.part c = 0 := by
    intro c
    rw [Asset.part, ho.feePaid hboth, ite_self]
  constructor
  · refine h.extend ho (fun c => ?_) ?_ ?_ ?_ ?_ ?_
    · have hpaid : paidOut [.released who receiver ⟨freezone, .freezone⟩,
          .released who receiver ⟨sbd, .sbd⟩] c = Asset.part c ⟨freezone, .freezone⟩ +
            Asset.part c ⟨sbd, .sbd⟩ := by
        simp [paidOut, EscrowEvent.payout]
      rw [hpaid, Escrow.released]
      split_ifs with hempty
      · cases c <;> simp only [Option.elim, Escrow.holds, hfee] <;> simp [Asset.part] <;> omega
      · cases c <;> simp only [Option.elim, Escrow.holds, hfee] <;> simp [Asset.part]
    · rw [if_neg (fun hn => hn.1 hboth)]
      rfl
    · exact fun _ _ _ heq hx => (FairEscrow.no_feePayment rfl heq hx).elim
    · intro hany
      simp at hany
    · intro hd y hy _
      rw [hagent hd, ho.agent] at hy
      rcases mem_cons.mp hy with rfl | hy
      · exact ⟨_, _, rfl⟩
      · rw [mem_singleton] at hy
        exact ⟨_, _, hy⟩
    · intro w hw
      simp at hw
  · intro e' he'
    rw [Escrow.released] at he'
    split_ifs at he' with hempty
    rw [Option.some.injEq] at he'
    subst he'
    refine ⟨ho.receiver, ho.agent, ho.third, ?_, ?_, (absurd hboth ·), fun _ =>
      ho.feePaid hboth, ?_,
      fun _ => hboth, ?_⟩
    · simp [ho.toApproved]
    · simp [ho.agentApproved]
    · simp [ho.disputed]
    · simpa using ho.standing

/-- Every history is fair. -/
theorem fair (h : History d events left) :
    FairEscrow d events left ∧ ∀ e, left = some e → OpenEscrow d events e := by
  induction h with
  | opened e hto hagent hfreezone hsbd hfee happroved hdisputed hthird =>
    have hnot : ¬ e.IsApproved := fun hn => by
      rw [Escrow.IsApproved, happroved.1] at hn
      cases hn.1
    refine ⟨⟨rfl, fun c => ?_, ?_, ?_, ?_, ?_⟩, ?_⟩
    · have hnone : paidOut [d.event] c = 0 := rfl
      rw [hnone, zero_add]
      cases c <;> simp [Escrow.holds, Deposit.amount, hfreezone, hsbd, hfee]
    · simp [Deposit.event, filterMap_cons, EscrowEvent.feePayment]
    · exact fun _ _ _ heq hx => (FairEscrow.no_feePayment rfl heq hx).elim
    · intro hany
      simp [Deposit.event] at hany
    · rintro before x after heq ⟨who, rfl⟩
      have hmem : EscrowEvent.disputed who ∈ [d.event] := by
        rw [heq]
        simp
      simp [Deposit.event] at hmem
    rintro _ ⟨⟩
    refine ⟨hto, hagent, hthird, ?_, ?_, fun _ => ⟨rfl, hfreezone, hsbd, hfee⟩, (absurd · hnot), ?_,
      ?_, ?_⟩
    · simp [happroved.1, Deposit.event]
    · simp [happroved.2, Deposit.event]
    · simp [hdisputed, Deposit.event]
    · simp [hdisputed]
    · simp [Deposit.event]
  | step _ hstep ih =>
    obtain ⟨hfair, hopen⟩ := ih
    have ho := hopen _ rfl
    cases hstep with
    | approve who hwho hpart =>
      obtain ⟨hfair', hopen'⟩ := fair_approve hfair ho hwho hpart
      exact ⟨hfair', fun _ he => Option.some.inj he ▸ hopen'⟩
    | ratify who hwho hboth =>
      obtain ⟨hfair', hopen'⟩ := fair_ratify hfair ho hwho hboth
      exact ⟨hfair', fun _ he => Option.some.inj he ▸ hopen'⟩
    | reject who hwho =>
      exact ⟨fair_refund hfair ho hwho.not_isApproved (Or.inl ⟨who, rfl⟩), by simp⟩
    | expire hnot => exact ⟨fair_refund hfair ho hnot (Or.inr rfl), by simp⟩
    | dispute who hboth =>
      obtain ⟨hfair', hopen'⟩ := fair_dispute hfair ho who hboth
      exact ⟨hfair', fun _ he => Option.some.inj he ▸ hopen'⟩
    | release who receiver freezone sbd hboth hagent =>
      exact fair_release hfair ho who receiver freezone sbd hboth hagent

end History

/-- A step of an escrow keeps its id. -/
theorem EscrowStep.id_eq {sender : AccountName} {e e' : Escrow} {new : List EscrowEvent}
    (h : EscrowStep sender e new (some e')) : e'.id = e.id := by
  generalize hleft : some e' = left at h
  cases h with
  | approve | ratify => rw [Option.some.inj hleft]; rfl
  | reject | expire => cases hleft
  | dispute => rw [Option.some.inj hleft]
  | release =>
    rw [Escrow.released] at hleft
    split_ifs at hleft
    rw [Option.some.inj hleft]

/-- The events of an escrow in the record. -/
def eventsOf (id : Nat) (log : List (Nat × EscrowEvent)) : List EscrowEvent :=
  (log.filter fun p => p.1 = id).map Prod.snd

theorem eventsOf_append (id : Nat) (log log' : List (Nat × EscrowEvent)) :
    eventsOf id (log ++ log') = eventsOf id log ++ eventsOf id log' := by
  simp [eventsOf]

theorem eventsOf_own (id : Nat) (new : List EscrowEvent) :
    eventsOf id (new.map (Prod.mk id)) = new := by
  simp [eventsOf, filter_map, Function.comp_def]

theorem eventsOf_other {id id' : Nat} (h : id' ≠ id) (new : List EscrowEvent) :
    eventsOf id (new.map (Prod.mk id')) = [] := by
  simp [eventsOf, filter_map, Function.comp_def, h]

namespace Ledger

variable {L L' : Ledger} {key : EscrowKey} {e : Escrow}

/-- The record tells the history of every escrow, open or closed. -/
structure Recorded (L : Ledger) : Prop where
  known : ∀ key e, L.escrows.find? key = some e → e.id < L.nextEscrowId
  distinct : ∀ key key' e e', L.escrows.find? key = some e → L.escrows.find? key' = some e' →
    e.id = e'.id → key = key'
  opened : ∀ key e, L.escrows.find? key = some e →
    ∃ d : Deposit, d.sender = key.1 ∧ History d (eventsOf e.id L.escrowLog) (some e)
  closed : ∀ id < L.nextEscrowId, (∀ key e, L.escrows.find? key = some e → e.id ≠ id) →
    ∃ d, History d (eventsOf id L.escrowLog) none
  fresh : ∀ p ∈ L.escrowLog, p.1 < L.nextEscrowId

theorem recorded_genesis (time initSupply sbdInitSupply : Nat) :
    (genesis time initSupply sbdInitSupply).Recorded where
  known _ _ h := by cases h
  distinct _ _ _ _ h := by cases h
  opened _ _ h := by cases h
  closed id h := absurd h (Nat.not_lt_zero id)
  fresh _ h := by cases h

theorem Recorded.kept (hr : L.Recorded) (h : Kept L L') : L'.Recorded := by
  obtain ⟨known, distinct, opened, closed, fresh⟩ := hr
  rw [← h.escrows, ← h.escrowLog, ← h.nextEscrowId] at *
  exact ⟨known, distinct, opened, closed, fresh⟩

/-- The record stays one when the escrow of one key, and only its history, goes on. -/
theorem Recorded.change (hr : L.Recorded) (id : Nat) (left : Option Escrow) (d : Deposit)
    (hfind : ∀ k, L'.escrows.find? k = if k = key then left else L.escrows.find? k)
    (hkey : ∀ k e, L.escrows.find? k = some e → (e.id = id ↔ k = key))
    (hleft : ∀ e, left = some e → e.id = id) (hsender : d.sender = key.1)
    (hhistory : History d (eventsOf id L'.escrowLog) left)
    (hother : ∀ id' ≠ id, eventsOf id' L'.escrowLog = eventsOf id' L.escrowLog)
    (hnext : ∀ id', id' < L'.nextEscrowId ↔ id' < L.nextEscrowId ∨ id' = id)
    (hfresh : ∀ p ∈ L'.escrowLog, p ∈ L.escrowLog ∨ p.1 = id) : L'.Recorded := by
  have hcases : ∀ k e, L'.escrows.find? k = some e →
      k = key ∧ left = some e ∧ e.id = id ∨ L.escrows.find? k = some e ∧ e.id ≠ id := by
    intro k e hk
    rw [hfind] at hk
    by_cases heq : k = key
    · rw [if_pos heq] at hk
      exact .inl ⟨heq, hk, hleft e hk⟩
    · rw [if_neg heq] at hk
      exact .inr ⟨hk, mt (hkey k e hk).mp heq⟩
  refine ⟨?_, ?_, ?_, ?_, ?_⟩
  · intro k e hk
    rw [hnext]
    rcases hcases k e hk with ⟨-, -, hid⟩ | ⟨hold, -⟩
    · exact .inr hid
    · exact .inl (hr.known k e hold)
  · intro k k' e1 e2 h1 h2 hsame
    rcases hcases k e1 h1 with ⟨hk, -, hid1⟩ | ⟨hold1, hid1⟩
    · rcases hcases k' e2 h2 with ⟨hk', -, -⟩ | ⟨-, hid2⟩
      · rw [hk, hk']
      · exact absurd (hsame.symm.trans hid1) hid2
    · rcases hcases k' e2 h2 with ⟨-, -, hid2⟩ | ⟨hold2, -⟩
      · exact absurd (hsame.trans hid2) hid1
      · exact hr.distinct k k' e1 e2 hold1 hold2 hsame
  · intro k e hk
    rcases hcases k e hk with ⟨rfl, rfl, rfl⟩ | ⟨hold, hne⟩
    · exact ⟨d, hsender, hhistory⟩
    · rw [hother e.id hne]
      exact hr.opened k e hold
  · intro id' hlt hgone
    by_cases heq : id' = id
    · subst heq
      cases left with
      | none => exact ⟨d, hhistory⟩
      | some e => exact absurd (hleft e rfl) (hgone key e (by rw [hfind, if_pos rfl]))
    · rw [hother id' heq]
      refine hr.closed id' (((hnext id').mp hlt).resolve_right heq) fun k e hk hsame => ?_
      have hne : k ≠ key := fun h => heq (hsame.symm.trans ((hkey k e hk).mpr h))
      exact hgone k e (by rw [hfind, if_neg hne]; exact hk) hsame
  · intro p hp
    rw [hnext]
    exact (hfresh p hp).imp_left (hr.fresh p)

/-- A new escrow starts its own record. -/
theorem Recorded.escrowTransfer (hr : L.Recorded) {o : EscrowTransfer}
    (h : L.escrowTransfer o = .ok L') : L'.Recorded := by
  obtain ⟨-, hthird, hins, hlog, hnext⟩ := escrowTransfer_spec h
  have hnone := (insert_eq_some.mp hins).1
  refine hr.change L.nextEscrowId _ ⟨o.fromAccount, o.toAccount, o.agent, o.freezoneAmount,
    o.sbdAmount, o.fee⟩ (fun k => find?_insert hins) (fun k e hk => ?_)
    (fun e he => Option.some.inj he ▸ rfl) rfl ?_ (fun id hne => ?_) (fun id => ?_) fun p hp => ?_
  · refine iff_of_false (hr.known k e hk).ne ?_
    rintro rfl
    rw [hnone] at hk
    cases hk
  · have hown : eventsOf L.nextEscrowId L'.escrowLog = [.deposited o.fromAccount o.toAccount o.agent
        o.freezoneAmount o.sbdAmount o.fee] := by
      have hnew : eventsOf L.nextEscrowId L.escrowLog = [] := by
        rw [eventsOf, map_eq_nil_iff, filter_eq_nil_iff]
        exact fun p hp => by simpa using (hr.fresh p hp).ne
      rw [hlog, eventsOf_append, hnew]
      exact eventsOf_own _ [_]
    rw [hown]
    exact .opened _ rfl rfl rfl rfl rfl ⟨rfl, rfl⟩ rfl hthird
  · rw [hlog, eventsOf_append]
    exact (congrArg _ (eventsOf_other hne.symm [_])).trans (append_nil _)
  · rw [hnext]
    omega
  · rw [hlog, mem_append, mem_singleton] at hp
    exact hp.imp_right (congrArg Prod.fst)

/-- A step continues a history. -/
theorem Recorded.advances (hr : L.Recorded) (h : Advances key e L L') : L'.Recorded := by
  obtain ⟨hkey, ⟨new, left, hstep, hescrows, hlog⟩, hnext⟩ := h
  obtain ⟨d, hsender, hhistory⟩ := hr.opened key e hkey
  refine hr.change e.id left d (fun k => ?_) (fun k e' hk => ?_) ?_ hsender ?_
    (fun id hne => ?_) (fun id => ?_) fun p hp => ?_
  · rw [hescrows]
    cases left with
    | none => exact find?_erase _ _ _
    | some e' => exact find?_set hkey e' k
  · constructor
    · exact hr.distinct k key e' e hk hkey
    · rintro rfl
      exact congrArg Escrow.id (Option.some.inj (hk.symm.trans hkey))
  · rintro e' rfl
    exact hstep.id_eq
  · rw [hlog, eventsOf_append, eventsOf_own]
    exact .step hhistory (hsender ▸ hstep)
  · rw [hlog, eventsOf_append, eventsOf_other hne.symm, append_nil]
  · have hid := hr.known key e hkey
    omega
  · rw [hlog, mem_append] at hp
    refine hp.imp_right fun hp => ?_
    obtain ⟨event, -, rfl⟩ := mem_map.mp hp
    rfl

/-- The sweep over the expired escrows is a sequence of steps. -/
theorem Recorded.expire (hr : L.Recorded) (h : L.expireEscrowRatification = .ok L') :
    L'.Recorded := by
  refine forEach_selection Ledger.escrows (P := Recorded)
    (fun entry hmem s s' hs he h => ?_) (selection_sorted _ _ _) hr h
  have hnot : ¬ entry.2.IsApproved := by
    have hfilter := of_mem_filter ((mem_insertionSort _).mp hmem)
    rw [decide_eq_true_eq] at hfilter
    exact hfilter.1
  obtain ⟨-, hadvances, herase⟩ := expireEscrow_spec h he hnot
  exact ⟨hs.advances hadvances, herase⟩

/-- Every step keeps the records. -/
theorem Recorded.apply (hr : L.Recorded) {step : LedgerStep} (h : L.apply step = .ok L') :
    L'.Recorded := by
  by_cases hescrow : step.IsEscrow
  · cases step with
    | escrowTransfer o => exact hr.escrowTransfer h
    | escrowApprove o =>
      obtain ⟨-, e, hadvances⟩ := escrowApprove_spec h
      exact hr.advances hadvances
    | escrowDispute o =>
      obtain ⟨-, e, hadvances⟩ := escrowDispute_spec h
      exact hr.advances hadvances
    | escrowRelease o =>
      obtain ⟨-, e, hadvances, -, -⟩ := escrowRelease_spec h
      exact hr.advances hadvances
    | expireEscrowRatification => exact hr.expire h
    | _ => exact absurd hescrow id
  · exact hr.kept (apply_kept h hescrow)

theorem Recorded.afterStep (hr : L.Recorded) (step : LedgerStep) : (L.afterStep step).Recorded := by
  rw [Ledger.afterStep]
  split
  · rename_i L' h
    exact hr.apply h
  · exact hr

/-- Every run keeps the records. -/
theorem Recorded.run (hr : L.Recorded) (steps : List LedgerStep) : (L.run steps).Recorded := by
  induction steps generalizing L with
  | nil => exact hr
  | cons step steps ih => exact ih (hr.afterStep step)

/-- What is left of an escrow. -/
def escrowLeft (id : Nat) (L : Ledger) : Option Escrow :=
  (L.escrows.entries.find? fun p => p.2.id = id).map Prod.snd

/-- An escrow that is approved, disputed and released in part by its agent. -/
def disputedEscrow : List LedgerStep :=
  [.accountCreate 2 10 0, .accountCreate 2 11 0,
    .escrowTransfer ⟨2, 10, 0, 5, 7, 11, ⟨1, .freezone⟩, 10, 20⟩,
    .escrowApprove ⟨2, 10, 11, 11, 7, true⟩, .escrowApprove ⟨2, 10, 11, 10, 7, true⟩,
    .escrowDispute ⟨2, 10, 11, 10, 7⟩, .escrowRelease ⟨2, 10, 11, 11, 10, 7, 0, 3⟩]

example : eventsOf 0 ((genesis 0 1000 0).run disputedEscrow).escrowLog =
    [.deposited 2 10 11 5 0 ⟨1, .freezone⟩, .approved 11, .approved 10,
      .feePaid 11 ⟨1, .freezone⟩, .disputed 10, .released 11 10 ⟨3, .freezone⟩,
      .released 11 10 ⟨0, .sbd⟩] := by
  decide

end Ledger

end Freezone.Chain.Funds
