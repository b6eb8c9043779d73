import LuckfoxPico.Aic.Proofs.TxSendProofs

/-!
# Proofs: the transmit thread is woken for all there is to send

As long as the bus is up, a thread that waits with nobody about to trigger it has sent every packet
and every message, whatever the power control does in between.
-/

namespace Aic

open Machine

/-- The thread has been triggered, or somebody is about to trigger it. -/
def TxPriv.Triggered (s : TxPriv) : Prop :=
  s.bustxTrgg ≠ 0 ∨ s.triggering ≠ 0 ∨ s.messaging ≠ 0

/-- The same, or a sender is about to count its packet. -/
def TxPriv.Called (s : TxPriv) : Prop :=
  s.Triggered ∨ s.counting = true

/-- If the chip sleeps or may be put to sleep, the thread will be back for the packets. -/
def TxPriv.Dozes (s : TxPriv) : Prop :=
  s.active = false ∨ s.pwr = .cmd ∨ s.pwr = .sleep → 0 < s.txq.qcnt → s.Called

/-- What makes the thread come back for what it leaves, at each of its places. -/
def TxPriv.Heeds (s : TxPriv) : Prop :=
  match s.pc with
  | .wait => (s.cmdTxstate = true → s.Triggered) ∧ (0 < s.txq.qcnt → s.Called)
  | .woken | .test => True
  | .process | .pwr | .wake => 0 < s.txPktcnt ∨ s.cmdTxstate = true
  | .cmd => (0 < s.txPktcnt ∨ s.cmdTxstate = true) ∧ s.active = true ∧ s.pwr ≠ .sleep ∧
      (s.pwr = .cmd → s.cmdTxstate = true) ∧ s.Dozes
  | .msg => s.cmdTxstate = true ∧ s.active = true ∧ s.pwr ≠ .sleep ∧ s.Dozes
  | .data => (s.cmdTxstate = true → s.Triggered) ∧ s.Dozes
  | .fetch | .flow | .loop | .up | .room => s.cmdTxstate = true → s.Triggered
  | .send txnow | .aggr _ txnow | .dec txnow =>
    (s.cmdTxstate = true → s.Triggered) ∧ (txnow = true → s.cmdTxstate = true)
  | .stopped => s.busUp = false

section Steps

variable {cap : Int} {s s' : TxPriv} {out : List TxOut} {pkts : List TxPkt} {pc : TxPc}

/-- A sender on its way calls the thread. -/
theorem heeds_of_called (h : s.Heeds) (hpc : s'.pc = s.pc) (hact : s'.active = s.active)
    (hpwr : s'.pwr = s.pwr) (hup : s'.busUp = s.busUp) (hcnt : s.txPktcnt ≤ s'.txPktcnt)
    (hcmd : s.cmdTxstate = true → s'.cmdTxstate = true)
    (hnew : s'.cmdTxstate = true → s.cmdTxstate = true ∨ s'.Triggered)
    (htrig : s.Triggered → s'.Triggered) (hcalled : s'.Called) : s'.Heeds := by
  have hmsg : (s.cmdTxstate = true → s.Triggered) → s'.cmdTxstate = true → s'.Triggered :=
    fun h hc => (hnew hc).elim (fun hc => htrig (h hc)) id
  have hdozes : s'.Dozes := fun _ _ => hcalled
  have hwork : 0 < s.txPktcnt ∨ s.cmdTxstate = true → 0 < s'.txPktcnt ∨ s'.cmdTxstate = true :=
    Or.imp (fun h => Nat.lt_of_lt_of_le h hcnt) hcmd
  unfold TxPriv.Heeds at h ⊢
  rw [hpc, hact, hpwr, hup]
  cases hs : s.pc with
  | wait =>
    rw [hs] at h
    exact ⟨hmsg h.1, fun _ => hcalled⟩
  | woken | test => trivial
  | process | pwr | wake =>
    rw [hs] at h
    exact hwork h
  | cmd =>
    rw [hs] at h
    exact ⟨hwork h.1, h.2.1, h.2.2.1, fun he => hcmd (h.2.2.2.1 he), hdozes⟩
  | msg =>
    rw [hs] at h
    exact ⟨hcmd h.1, h.2.1, h.2.2.1, hdozes⟩
  | data =>
    rw [hs] at h
    exact ⟨hmsg h.1, hdozes⟩
  | fetch | flow | loop | up | room =>
    rw [hs] at h
    exact hmsg h
  | send txnow | aggr pkt txnow | dec txnow =>
    rw [hs] at h
    exact ⟨hmsg h.1, fun ht => hcmd (h.2 ht)⟩
  | stopped =>
    rw [hs] at h
    exact h

/-- With nothing counted, what is in the queue is about to be counted. -/
theorem TxInv.called_of_uncounted (h : TxInv s pkts) (hcnt : s.txPktcnt = 0) :
    0 < s.txq.qcnt → s.Called := by
  intro hpos
  have htotal := h.total
  right
  cases hc : s.counting with
  | true => rfl
  | false =>
    rw [hcnt, hc] at htotal
    change 0 + 0 = _ at htotal
    omega

/-- The power control puts the chip to sleep only if the thread will be back. -/
theorem TxInv.heeds_pwrctl (hinv : TxInv s pkts) (h : s.Heeds) {pwr : PwrPc} {act : Bool}
    (hp : Pwr s pwr act) : ({ s with pwr := pwr, active := act } : TxPriv).Heeds := by
  have hdozes : s.Dozes → ({ s with pwr := pwr, active := act } : TxPriv).Dozes := by
    intro hd
    cases hp with
    | back | look =>
      rintro (hact | hpwr | hpwr) hpos
      · exact hd (Or.inl hact) hpos
      · cases hpwr
      · cases hpwr
    | quiet _ hcnt => exact fun _ => hinv.called_of_uncounted hcnt
    | allow hpwr => exact fun _ => hd (Or.inr (Or.inl hpwr))
    | sleep hpwr => exact fun _ => hd (Or.inr (Or.inr hpwr))
  unfold TxPriv.Heeds at h ⊢
  cases hs : s.pc with
  | wait | woken | test | process | pwr | wake | fetch | flow | loop | up | room | stopped =>
    rw [hs] at h
    exact h
  | send | aggr | dec =>
    rw [hs] at h
    exact h
  | data =>
    rw [hs] at h
    exact ⟨h.1, hdozes h.2⟩
  | cmd =>
    rw [hs] at h
    obtain ⟨hwork, hact, hne, hcmd, hd⟩ := h
    cases hp with
    | back => exact ⟨hwork, hact, nofun, nofun, hdozes hd⟩
    | look => exact ⟨hwork, hact, nofun, nofun, hdozes hd⟩
    | quiet _ hcnt =>
      exact ⟨hwork, hact, nofun, fun _ => hwork.resolve_left (by omega), hdozes hd⟩
    | allow hpwr hfalse => exact absurd (hcmd hpwr) (by simp [hfalse])
    | sleep hpwr => exact absurd hpwr hne
  | msg =>
    rw [hs] at h
    obtain ⟨hcmd, hact, hne, hd⟩ := h
    cases hp with
    | back => exact ⟨hcmd, hact, nofun, hdozes hd⟩
    | look => exact ⟨hcmd, hact, nofun, hdozes hd⟩
    | quiet => exact ⟨hcmd, hact, nofun, hdozes hd⟩
    | allow _ hfalse => exact absurd hcmd (by simp [hfalse])
    | sleep hpwr => exact absurd hpwr hne

theorem dozes_of_idle (hact : s.active = true) (hidle : s.pwr = .idle) : s.Dozes := by
  rintro (h | h | h)
  · exact absurd h (by simp [hact])
  · exact absurd h (by simp [hidle])
  · exact absurd h (by simp [hidle])

theorem heeds_wakeup (h : s.Heeds) (hidle : s.pwr = .idle) :
    ({ s with active := true } : TxPriv).Heeds := by
  have hdozes : ({ s with active := true } : TxPriv).Dozes := dozes_of_idle rfl hidle
  unfold TxPriv.Heeds at h ⊢
  cases hs : s.pc with
  | wait | woken | test | process | pwr | wake | fetch | flow | loop | up | room | stopped =>
    rw [hs] at h
    exact h
  | send | aggr | dec =>
    rw [hs] at h
    exact h
  | data =>
    rw [hs] at h
    exact ⟨h.1, hdozes⟩
  | cmd =>
    rw [hs] at h
    exact ⟨h.1, rfl, h.2.2.1, h.2.2.2.1, hdozes⟩
  | msg =>
    rw [hs] at h
    exact ⟨h.1, rfl, h.2.2.1, hdozes⟩

/-- The thread goes to wait only if it is called for what it leaves. -/
theorem TxInv.heeds_goto (hinv : TxInv s pkts) (h : s.Heeds) (hup : s.busUp = true)
    (hg : Goto s s.pc pc) : ({ s with pc := pc } : TxPriv).Heeds := by
  have hdown : s.busUp ≠ false := by simp [hup]
  unfold TxPriv.Heeds at h
  generalize hpc : s.pc = pc₀ at hg
  rw [hpc] at h
  cases hg with
  | start => trivial
  | stopped hup' | processDown hup' | pwrDown hup' | upDown hup' => exact absurd hup' hdown
  | work hwork => exact hwork
  | idle hcnt hcmd => exact ⟨fun hc => by simp [hcmd] at hc, hinv.called_of_uncounted hcnt⟩
  | process | pwr | fetchNone | fetchSome | more | up | refill => exact h
  | awake => exact h.1
  | message hcmd => exact ⟨hcmd, h.2.1, h.2.2.1, h.2.2.2.2⟩
  | noMessage hcmd => exact ⟨fun hc => by simp [hcmd] at hc, h.2.2.2.2⟩
  | asleepMsg hact => exact absurd hact (by simp [h.2.1])
  | asleep hact => exact ⟨h.1, h.2 (Or.inl hact)⟩
  | done hempty =>
    have h0 := hinv.queue.isEmpty_iff.mp hempty
    exact ⟨h, fun hpos => absurd h0 (Nat.ne_of_gt hpos)⟩
  | yield _ hcmd => exact ⟨h, fun _ => Or.inl (h hcmd)⟩
  | send => exact ⟨h, id⟩

theorem heeds_dec {txnow : Bool} (h : (s.cmdTxstate = true → s.Triggered) ∧
    (txnow = true → s.cmdTxstate = true)) (hpc : s'.pc = .dec txnow)
    (hcmd : s'.cmdTxstate = s.cmdTxstate) (htrgg : s'.bustxTrgg = s.bustxTrgg)
    (htrig : s'.triggering = s.triggering) (hmsg : s'.messaging = s.messaging) : s'.Heeds := by
  unfold TxPriv.Heeds TxPriv.Triggered
  rw [hpc, hcmd, htrgg, htrig, hmsg]
  exact h

/-- Every step keeps that the thread comes back for what it leaves. -/
theorem TxInv.heeds_step (hinv : TxInv s pkts) (h : s.busUp = true → s.Heeds)
    (he : TxEffect cap s out s') : s'.busUp = true → s'.Heeds := by
  intro hup
  cases he with
  | refuse => exact h hup
  | enqueue =>
    exact heeds_of_called (h hup) rfl rfl rfl rfl (Nat.le_refl _) id Or.inl id (Or.inr rfl)
  | count hc =>
    have htrig : s.triggering + 1 ≠ 0 := Nat.succ_ne_zero _
    exact heeds_of_called (h hup) rfl rfl rfl rfl (Nat.le_succ _) id Or.inl
      (fun _ => Or.inr (Or.inl htrig)) (Or.inl (Or.inr (Or.inl htrig)))
  | txmsg =>
    have hmsg : s.messaging + 1 ≠ 0 := Nat.succ_ne_zero _
    exact heeds_of_called (h hup) rfl rfl rfl rfl (Nat.le_refl _) (fun _ => rfl)
      (fun _ => Or.inr (Or.inr (Or.inr hmsg))) (fun _ => Or.inr (Or.inr hmsg))
      (Or.inl (Or.inr (Or.inr hmsg)))
  | txmsgBus hm =>
    have hup' : s.busUp = true := hup
    have htrig : (if s.busUp then s.triggering + 1 else s.triggering) ≠ 0 := by simp [hup']
    exact heeds_of_called (h hup) rfl rfl rfl rfl (Nat.le_refl _) id Or.inl
      (fun _ => Or.inr (Or.inl htrig)) (Or.inl (Or.inr (Or.inl htrig)))
  | trigger ht =>
    have htrig : s.bustxTrgg + 1 ≠ 0 := Nat.succ_ne_zero _
    exact heeds_of_called (h hup) rfl rfl rfl rfl (Nat.le_refl _) id Or.inl
      (fun _ => Or.inl htrig) (Or.inl (Or.inl htrig))
  | pwrctl pwr act hp => exact hinv.heeds_pwrctl (h hup) hp
  | wakeup hidle => exact heeds_wakeup (h hup) hidle
  | busDown => cases hup
  | wait => trivial
  | goto pc hg => exact hinv.heeds_goto (h hup) hup hg
  | activate hpc hidle =>
    have hheeds := h hup
    simp only [TxPriv.Heeds, hpc] at hheeds
    exact ⟨hheeds, rfl, by simp [hidle], by simp [hidle], dozes_of_idle rfl hidle⟩
  | msg hpc =>
    have hheeds := h hup
    simp only [TxPriv.Heeds, hpc] at hheeds
    exact ⟨nofun, hheeds.2.2.2⟩
  | flow reads ret hpc _ =>
    have hheeds := h hup
    simp only [TxPriv.Heeds, hpc] at hheeds
    exact hheeds
  | astray txnow out s' hpc hodd => exact absurd hodd (hinv.not_astray hpc)
  | takeNone txnow txq hpc hd => exact absurd hd (hinv.not_takeNone hpc)
  | take txnow pkt txq hpc =>
    have hheeds := h hup
    simp only [TxPriv.Heeds, hpc] at hheeds
    exact hheeds
  | gather pkt txnow hpc | burst pkt txnow _ hpc =>
    have hheeds := h hup
    simp only [TxPriv.Heeds, hpc] at hheeds
    exact heeds_dec hheeds rfl rfl rfl rfl rfl
  | dec txnow hpc =>
    have hheeds := h hup
    simp only [TxPriv.Heeds, hpc] at hheeds
    cases txnow with
    | true =>
      have htrig := hheeds.1 (hheeds.2 rfl)
      exact ⟨fun _ => htrig, fun _ => Or.inl htrig⟩
    | false => exact hheeds.1

/-- As long as the bus is up, no burst has found it down. -/
theorem TxInv.up_of_burst (hinv : TxInv s pkts) (he : TxEffect cap s out s')
    (hup : s'.busUp = true) :
    s.busUp = true ∧ ∀ bytes ret, .burst bytes ret ∈ out → ret ≠ .down := by
  cases he with
  | busDown => cases hup
  | astray txnow out s' hpc hodd => exact absurd hodd (hinv.not_astray hpc)
  | burst pkt txnow ok =>
    have hup' : s.busUp = true := hup
    refine ⟨hup, fun bytes ret hmem => ?_⟩
    obtain ⟨-, rfl⟩ := TxOut.burst.inj (List.mem_singleton.mp hmem)
    have hret : (s.aggrPkt pkt).txpkt ok = if ok then .sent else .failed := by
      rw [TxPriv.txpkt, show (s.aggrPkt pkt).busUp = true from hup']
      rfl
    rw [hret]
    cases ok <;> nofun
  | refuse | enqueue | msg | flow =>
    exact ⟨hup, fun bytes ret hmem => by cases List.mem_singleton.mp hmem⟩
  | count | txmsg | txmsgBus | trigger | pwrctl | wakeup | wait | goto | activate | takeNone
  | take | gather | dec => exact ⟨hup, fun _ _ hmem => nomatch hmem⟩

end Steps

/-! ## Runs -/

/-- The thread waits, and nobody is about to trigger it. -/
def TxPriv.Idle (s : TxPriv) : Prop :=
  s.pc = .wait ∧ s.bustxTrgg = 0 ∧ s.triggering = 0 ∧ s.messaging = 0 ∧ s.counting = false

instance (s : TxPriv) : Decidable s.Idle := inferInstanceAs (Decidable (_ ∧ _))

section Runs

variable {cap : Int} {s : TxPriv} {es : List TxEvent} {out : List TxOut}

theorem heeds_of_run (hrun : run (TxPriv.step cap) .init es = some (s, out))
    (hup : s.busUp = true) : s.Heeds ∧ ∀ bytes ret, .burst bytes ret ∈ out → ret ≠ .down := by
  suffices h : ∃ pkts, TxInv s pkts ∧ (s.busUp = true → s.Heeds) ∧
      (s.busUp = true → ∀ bytes ret, .burst bytes ret ∈ out → ret ≠ .down) by
    obtain ⟨-, -, hheeds, hbursts⟩ := h
    exact ⟨hheeds hup, hbursts hup⟩
  refine run_history (I := fun s _ out => ∃ pkts, TxInv s pkts ∧ (s.busUp = true → s.Heeds) ∧
    (s.busUp = true → ∀ bytes ret, .burst bytes ret ∈ out → ret ≠ .down)) ?_ ?_ hrun
  · exact ⟨[], txInv_init, fun _ => ⟨nofun, nofun⟩, fun _ _ _ hmem => nomatch hmem⟩
  · rintro s _ o e s' o' ⟨pkts, hinv, hheeds, hbursts⟩ hstep
    have he := txEffect_of_step hstep
    obtain ⟨pkts', -, hinv', -⟩ := hinv.step he
    refine ⟨pkts', hinv', hinv.heeds_step hheeds he, fun hup' bytes ret hmem => ?_⟩
    obtain ⟨hup, hnew⟩ := hinv.up_of_burst he hup'
    rcases List.mem_append.mp hmem with hmem | hmem
    · exact hbursts hup bytes ret hmem
    · exact hnew bytes ret hmem

/-- When the thread waits and nobody is about to trigger it, with the bus up, there is nothing left
to send: `cmd_txstate` is clear, no packet is in a queue or in the buffer, and all packets that were
accepted have been handed over on a bus that was up, so that each has been sent unless the transfer
of its burst failed. -/
theorem tx_no_lost_wakeup (hrun : run (TxPriv.step cap) .init es = some (s, out))
    (hup : s.busUp = true) (hidle : s.Idle) :
    s.cmdTxstate = false ∧ s.aggrBuf = [] ∧ Levels.Empty s.txq.queuelist ∧
      ∃ bursts : List (List TxPkt × TxpktRet),
        transfers out = bursts.map (fun b => (wire b.1, b.2)) ∧
          (∀ b ∈ bursts, b.2 = .sent ∨ b.2 = .failed) ∧
            ∀ p, (bursts.map Prod.fst).flatten.filter (fun pkt => pkt.prio = p) =
              (accepted out).filter (fun pkt => pkt.prio = p) := by
  obtain ⟨hpc, htrgg, htrig, hmsg, hcount⟩ := hidle
  obtain ⟨hheeds, hbursts⟩ := heeds_of_run hrun hup
  obtain ⟨pkts, acts, hinv, hacts, hshown, -⟩ := run_sender hrun
  have hnot : ¬ s.Triggered := by
    rintro (h | h | h)
    · exact h htrgg
    · exact h htrig
    · exact h hmsg
  simp only [TxPriv.Heeds, hpc] at hheeds
  have hhere := hinv.here
  simp only [TxPriv.At, hpc] at hhere
  obtain rfl := hhere.resolve_right (by simp [hup])
  have hqcnt : s.txq.qcnt = 0 := by
    by_contra hne
    rcases hheeds.2 (Nat.pos_of_ne_zero hne) with h | h
    · exact hnot h
    · simp [hcount] at h
  have hempty := hinv.queue.empty_iff.mpr hqcnt
  obtain ⟨bursts, htransfers, hfst⟩ := exists_bursts hshown
  refine ⟨?_, hinv.buf, hempty, bursts, htransfers, ?_, ?_⟩
  · exact Bool.eq_false_iff.mpr fun hcmd => hnot (hheeds.1 hcmd)
  · intro b hb
    have hmem : (wire b.1, b.2) ∈ transfers out := htransfers ▸ List.mem_map.mpr ⟨b, hb, rfl⟩
    have hret := hbursts _ _ (burst_mem_of_transfer_mem hmem)
    cases hb2 : b.2 with
    | sent => exact Or.inl rfl
    | failed => exact Or.inr rfl
    | down => exact absurd hb2 hret
  · intro p
    have hserves := hacts.serves p
    rw [putOf_eq_accepted hshown, ← hfst] at hserves
    rw [← hserves]
    change _ = _ ++ s.txq.queuelist p
    rw [hempty p, List.append_nil]
    simp [TxPriv.sender, hpc, TxPc.held]

/-- The thread is triggered once more and finds nothing to do. -/
def sampleRest : List TxEvent := [.wait, .thread true, .thread true]

theorem tx_no_lost_wakeup_two : ∃ s,
    run (TxPriv.step 32) .init (sampleStart ++ sampleSend ++ sampleRest) = some (s, sampleOut) ∧
      s.cmdTxstate = false ∧ s.aggrBuf = [] ∧ Levels.Empty s.txq.queuelist := by
  have hrun : (run (TxPriv.step 32) .init (sampleStart ++ sampleSend ++ sampleRest)).map
      (fun r => (decide (r.1.busUp = true ∧ r.1.Idle), r.2)) = some (true, sampleOut) := by
    decide +kernel
  obtain ⟨⟨s, out⟩, hrun, h⟩ := Option.map_eq_some_iff.mp hrun
  obtain ⟨hs, rfl⟩ := Prod.mk.inj h
  obtain ⟨hup, hidle⟩ := of_decide_eq_true hs
  obtain ⟨hcmd, hbuf, hempty, -⟩ := tx_no_lost_wakeup hrun hup hidle
  exact ⟨s, hrun, hcmd, hbuf, hempty⟩

end Runs

end Aic
