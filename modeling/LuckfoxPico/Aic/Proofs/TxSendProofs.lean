import LuckfoxPico.Aic.Proofs.TxRefineProofs

/-!
# Proofs: what the transmit path sends

Every packet that was accepted is handed to `aicwf_sdio_txpkt` once, in the order of its priority,
or still there; no more is handed over than the firmware has room for, and the buffer does not run
over.
-/

namespace Aic

open Machine

def TxOut.accepted? : TxOut → Option TxPkt
  | .accept pkt => some pkt
  | _ => none

def TxOut.bytes? : TxOut → Option (List UInt8)
  | .burst bytes _ => some bytes
  | _ => none

def TxOut.transfer? : TxOut → Option (List UInt8 × TxpktRet)
  | .burst bytes ret => some (bytes, ret)
  | _ => none

/-- The packets that have been accepted. -/
def accepted (out : List TxOut) : List TxPkt :=
  out.filterMap TxOut.accepted?

/-- The bytes that `aicwf_sdio_txpkt` has been called with. -/
def wires (out : List TxOut) : List (List UInt8) :=
  out.filterMap TxOut.bytes?

/-- The same, each with how the call ended. -/
def transfers (out : List TxOut) : List (List UInt8 × TxpktRet) :=
  out.filterMap TxOut.transfer?

section Seen

variable {acts : List (Batch.Act TxPkt)} {out : List TxOut}

theorem putOf_eq_accepted (h : acts.filterMap shown = out.filterMap TxOut.seen) :
    Batch.putOf acts = accepted out := by
  have hput : ∀ a, (shown a).bind TxOut.accepted? = a.put? := fun a => by cases a <;> rfl
  have hacc : ∀ o, (TxOut.seen o).bind TxOut.accepted? = o.accepted? := fun o => by cases o <;> rfl
  have := congrArg (List.filterMap TxOut.accepted?) h
  rw [List.filterMap_filterMap, List.filterMap_filterMap, funext hput, funext hacc] at this
  exact this

theorem map_wire_burstsOf (h : acts.filterMap shown = out.filterMap TxOut.seen) :
    (Batch.burstsOf acts).map wire = wires out := by
  have hburst : ∀ a, (shown a).bind TxOut.bytes? = a.burst?.map wire :=
    fun a => by cases a <;> rfl
  have hbytes : ∀ o, (TxOut.seen o).bind TxOut.bytes? = o.bytes? := fun o => by cases o <;> rfl
  have := congrArg (List.filterMap TxOut.bytes?) h
  rw [List.filterMap_filterMap, List.filterMap_filterMap, funext hburst, funext hbytes] at this
  rw [Batch.burstsOf, List.map_filterMap]
  exact this

theorem map_fst_transfers (out : List TxOut) : (transfers out).map Prod.fst = wires out := by
  have hbytes : ∀ o, (TxOut.transfer? o).map Prod.fst = o.bytes? := fun o => by cases o <;> rfl
  rw [transfers, wires, List.map_filterMap, funext hbytes]

theorem burst_mem_of_transfer_mem {bytes : List UInt8} {ret : TxpktRet}
    (h : (bytes, ret) ∈ transfers out) : .burst bytes ret ∈ out := by
  obtain ⟨o, ho, htransfer⟩ := List.mem_filterMap.mp h
  cases o with
  | burst bytes' ret' =>
    obtain ⟨rfl, rfl⟩ := Prod.mk.inj (Option.some.inj htransfer)
    exact ho
  | accept | refuse | msg | flow => cases htransfer

/-- The calls are calls with bursts of packets. -/
theorem exists_transfers {ts : List (List UInt8 × TxpktRet)} {xss : List (List TxPkt)}
    (h : ts.map Prod.fst = xss.map wire) :
    ∃ bursts : List (List TxPkt × TxpktRet), ts = bursts.map (fun b => (wire b.1, b.2)) ∧
      bursts.map Prod.fst = xss := by
  induction ts generalizing xss with
  | nil =>
    obtain rfl := List.map_eq_nil_iff.mp h.symm
    exact ⟨[], rfl, rfl⟩
  | cons t ts ih =>
    obtain ⟨bytes, ret⟩ := t
    obtain ⟨xs, xss, rfl, hxs, hxss⟩ := List.map_eq_cons_iff.mp h.symm
    obtain ⟨bursts, rfl, rfl⟩ := ih hxss.symm
    obtain rfl : wire xs = bytes := hxs
    exact ⟨(xs, ret) :: bursts, rfl, rfl⟩

/-- The bursts of the sender, with how each call ended. -/
theorem exists_bursts (h : acts.filterMap shown = out.filterMap TxOut.seen) :
    ∃ bursts : List (List TxPkt × TxpktRet),
      transfers out = bursts.map (fun b => (wire b.1, b.2)) ∧
        bursts.map Prod.fst = Batch.burstsOf acts :=
  exists_transfers (by rw [map_fst_transfers, map_wire_burstsOf h])

theorem flow_mem_of_grant_mem (h : acts.filterMap shown = out.filterMap TxOut.seen) {r : Int}
    (hr : .grant r ∈ acts) : .flow (r + 2) ∈ out := by
  have hmem : TxOut.flow (r + 2) ∈ out.filterMap TxOut.seen :=
    h ▸ List.mem_filterMap.mpr ⟨_, hr, rfl⟩
  obtain ⟨o, ho, hseen⟩ := List.mem_filterMap.mp hmem
  cases o with
  | flow ret =>
    obtain rfl := TxOut.flow.inj (Option.some.inj hseen)
    exact ho
  | accept | refuse | msg | burst => cases hseen

/-- What comes behind a reading of the flow control comes behind a grant. -/
theorem exists_grant {o₁ o₂ : List TxOut} {ret : Int}
    (h : acts.filterMap shown = (o₁ ++ .flow ret :: o₂).filterMap TxOut.seen) :
    ∃ l m, acts = l ++ .grant (ret - 2) :: m ∧ l.filterMap shown = o₁.filterMap TxOut.seen ∧
      m.filterMap shown = o₂.filterMap TxOut.seen := by
  rw [List.filterMap_append] at h
  obtain ⟨l₁, l₂, rfl, hl, h⟩ := List.filterMap_eq_append_iff.mp h
  obtain ⟨l₃, a, m, rfl, hnone, ha, hm⟩ := List.filterMap_eq_cons_iff.mp h
  refine ⟨l₁ ++ l₃, m, ?_, ?_, hm⟩
  · cases a with
    | grant r =>
      have hr : r + 2 = ret := TxOut.flow.inj (Option.some.inj ha)
      rw [← hr, Int.add_sub_cancel, List.append_assoc]
    | put | take | burst => cases ha
  · rw [List.filterMap_append, hl, List.filterMap_eq_nil_iff.mpr hnone, List.append_nil]

end Seen

section Sizes

variable {cap : Int}

/-- What `aicwf_sdio_flow_ctrl` returns is within `tx_aggr_counter` and the mask of the register. -/
theorem flowCtrl_le {reads : List (Option Nat)} {count : Nat} {ret : Int}
    (h : flowCtrl cap count reads = some ret) : ret ≤ max (min cap 127) 0 := by
  induction reads generalizing count with
  | nil => cases h
  | cons read reads ih =>
    cases read with
    | none =>
      obtain rfl := Option.some.inj h
      omega
    | some fcReg =>
      have hmask : flowctrlMask fcReg ≤ 127 := Nat.le_of_lt_succ (Nat.mod_lt _ (by decide))
      rw [flowCtrl] at h
      split at h
      · obtain rfl := Option.some.inj h
        split <;> omega
      · split at h
        · obtain rfl := Option.some.inj h
          omega
        · exact ih h

theorem length_frame_le {pkt : TxPkt} {longest : Nat} (h : pkt.body.length ≤ longest) :
    pkt.frame.length ≤ 32 + roundup longest txAlignment := by
  rw [length_frame, TxPkt.frameLen, roundup_four, roundup_four, txdescLen]
  omega

theorem length_flatMap_frame_le {pkts : List TxPkt} {longest : Nat}
    (h : ∀ pkt ∈ pkts, pkt.body.length ≤ longest) :
    (pkts.flatMap TxPkt.frame).length ≤ pkts.length * (32 + roundup longest txAlignment) := by
  induction pkts with
  | nil => exact Nat.zero_le _
  | cons pkt pkts ih =>
    have hpkt := length_frame_le (h pkt (List.mem_cons_self))
    have := ih fun x hx => h x (List.mem_cons_of_mem _ hx)
    rw [List.flatMap_cons, List.length_append, List.length_cons, Nat.succ_mul]
    omega

theorem length_wire_le (pkts : List TxPkt) :
    (wire pkts).length ≤ (pkts.flatMap TxPkt.frame).length + tailLen := by
  rw [wire]
  split
  · exact Nat.le_of_eq (by rw [List.length_append, List.length_replicate])
  · exact Nat.le_add_right _ _

/-- A batch within the credit fits into the buffer, its tail included. -/
theorem fits {pkts : List TxPkt} {longest : Nat} (hlen : ∀ pkt ∈ pkts, pkt.body.length ≤ longest)
    (hbatch : (pkts.length : Int) ≤ max (min cap 127 - 2) 0)
    (hfit : max (min cap 127 - 2) 0 * (32 + roundup longest txAlignment : Nat) + tailLen ≤
      maxAggrTxpktLen) :
    (pkts.flatMap TxPkt.frame).length + tailLen ≤ maxAggrTxpktLen := by
  have hle := length_flatMap_frame_le hlen
  have hmul : (pkts.length : Int) * (32 + roundup longest txAlignment : Nat) ≤
      max (min cap 127 - 2) 0 * (32 + roundup longest txAlignment : Nat) :=
    Int.mul_le_mul_of_nonneg_right hbatch (Int.natCast_nonneg _)
  rw [← Int.natCast_mul] at hmul
  omega

end Sizes

/-! ## A run with two packets -/

def sampleDesc : List UInt8 := List.replicate 28 0

theorem length_sampleDesc : sampleDesc.length = txdescLen := rfl

def sampleTx (priority : Nat) : TxPkt := ⟨priority, sampleDesc, [1, 2, 3], length_sampleDesc⟩

/-- The thread is triggered and goes as far as to the flow control. -/
def sampleStart : List TxEvent :=
  [.txdata (sampleTx 0) true, .count, .txdata (sampleTx 5) true, .count, .trigger, .trigger, .wait,
    .thread true, .thread true, .thread true, .thread true, .thread true, .thread true,
    .thread true, .thread true]

/-- It reads the register and sends the packets. -/
def sampleSend : List TxEvent :=
  .flow [some 1, some 34] :: List.replicate 13 (.thread true)

def sampleOut : List TxOut :=
  [.accept (sampleTx 0), .accept (sampleTx 5), .flow 32,
    .burst (wire [sampleTx 5, sampleTx 0]) .sent]

theorem sampleSend_out :
    (run (TxPriv.step 32) .init (sampleStart ++ sampleSend)).map Prod.snd = some sampleOut := by
  decide +kernel

theorem exists_sampleSend :
    ∃ s, run (TxPriv.step 32) .init (sampleStart ++ sampleSend) = some (s, sampleOut) := by
  obtain ⟨⟨s, out⟩, hrun, hout⟩ := Option.map_eq_some_iff.mp sampleSend_out
  obtain rfl : out = sampleOut := hout
  exact ⟨s, hrun⟩

/-! ## Runs -/

section Runs

variable {cap : Int} {s s' : TxPriv} {es : List TxEvent} {out : List TxOut} {pkts : List TxPkt}

theorem TxInv.flow_le (h : TxInv s pkts) (he : TxEffect cap s out s') {ret : Int}
    (hret : .flow ret ∈ out) : ret ≤ max (min cap 127) 0 := by
  cases he with
  | flow reads ret' hpc hflow =>
    obtain rfl := TxOut.flow.inj (List.mem_singleton.mp hret)
    exact flowCtrl_le hflow
  | astray txnow out s' hpc hodd => exact absurd hodd (h.not_astray hpc)
  | burst => cases List.mem_singleton.mp hret
  | refuse | enqueue | msg => cases List.mem_singleton.mp hret
  | count | txmsg | txmsgBus | trigger | pwrctl | wakeup | busDown | wait | goto | activate
  | takeNone | take | gather | dec => cases hret

/-- A run of the transmit path is a run of the sender. -/
theorem run_sender (hrun : run (TxPriv.step cap) .init es = some (s, out)) :
    ∃ pkts acts, TxInv s pkts ∧ Batch.Run TxPkt.prio (.start (-2)) acts (s.sender pkts) ∧
      acts.filterMap shown = out.filterMap TxOut.seen ∧
        ∀ ret, .flow ret ∈ out → ret ≤ max (min cap 127) 0 := by
  refine run_history (I := fun s _ out => ∃ pkts acts, TxInv s pkts ∧
    Batch.Run TxPkt.prio (.start (-2)) acts (s.sender pkts) ∧
      acts.filterMap shown = out.filterMap TxOut.seen ∧
        ∀ ret, .flow ret ∈ out → ret ≤ max (min cap 127) 0) ?_ ?_ hrun
  · exact ⟨[], [], txInv_init, .start, rfl, fun _ h => nomatch h⟩
  · rintro s _ o e s' o' ⟨pkts, acts, hinv, hacts, hshown, hflow⟩ hstep
    have he := txEffect_of_step hstep
    obtain ⟨pkts', acts', hinv', hacts', hshown'⟩ := hinv.step he
    refine ⟨pkts', acts ++ acts', hinv', hacts.trans hacts', ?_, ?_⟩
    · rw [List.filterMap_append, List.filterMap_append, hshown, hshown']
    · intro ret hret
      rcases List.mem_append.mp hret with hret | hret
      · exact hflow ret hret
      · exact hinv.flow_le he hret

theorem body_le_of_serves {l : Levels.State TxPkt} {taken put : List TxPkt}
    (h : Levels.Serves TxPkt.prio l taken put) {longest : Nat}
    (hlen : ∀ pkt ∈ put, pkt.body.length ≤ longest) :
    ∀ pkt ∈ taken, pkt.body.length ≤ longest := by
  intro pkt hpkt
  refine hlen pkt (List.mem_of_mem_filter (p := fun x => x.prio = pkt.prio) ?_)
  rw [← h pkt.prio]
  exact List.mem_append_left _ (List.mem_filter.mpr ⟨hpkt, decide_eq_true rfl⟩)

/-- In every run, the bursts that `aicwf_sdio_txpkt` is called with consist of whole packets, each
of them accepted before, and for each priority the packets of the bursts, then those in the buffer,
then those in the queue are the accepted ones in their order: none is handed over twice or overtaken
by one of its priority, and none is lost but with a burst whose transfer failed or which found the
bus down. -/
theorem tx_conserves (hrun : run (TxPriv.step cap) .init es = some (s, out)) :
    ∃ (bursts : List (List TxPkt × TxpktRet)) (pkts : List TxPkt),
      transfers out = bursts.map (fun b => (wire b.1, b.2)) ∧
        s.aggrBuf = pkts.flatMap TxPkt.frame ∧
          Levels.Serves TxPkt.prio s.txq.queuelist
            ((bursts.map Prod.fst).flatten ++ (pkts ++ s.pc.held)) (accepted out) := by
  obtain ⟨pkts, acts, hinv, hacts, hshown, -⟩ := run_sender hrun
  obtain ⟨bursts, htransfers, hbursts⟩ := exists_bursts hshown
  refine ⟨bursts, pkts, htransfers, hinv.buf, ?_⟩
  rw [hbursts, ← putOf_eq_accepted hshown]
  exact hacts.serves

theorem tx_conserves_two : ∃ s, run (TxPriv.step 32) .init (sampleStart ++ sampleSend) =
      some (s, sampleOut) ∧
    ∃ (bursts : List (List TxPkt × TxpktRet)) (pkts : List TxPkt),
      transfers sampleOut = bursts.map (fun b => (wire b.1, b.2)) ∧
        s.aggrBuf = pkts.flatMap TxPkt.frame ∧
          Levels.Serves TxPkt.prio s.txq.queuelist
            ((bursts.map Prod.fst).flatten ++ (pkts ++ s.pc.held)) (accepted sampleOut) := by
  obtain ⟨s, hrun⟩ := exists_sampleSend
  exact ⟨s, hrun, tx_conserves hrun⟩

/-- What is handed over after a reading of the flow control, up to the next one, is no more than the
firmware had room for, less the threshold; the packets are accepted ones, in their order behind
those handed over before. -/
theorem tx_within_credit {o₁ o₂ : List TxOut} {ret : Int}
    (hrun : run (TxPriv.step cap) .init es = some (s, o₁ ++ .flow ret :: o₂))
    (hnext : ∀ r, .flow r ∉ o₂) :
    ret ≤ max (min cap 127) 0 ∧ ∃ (bursts₁ bursts₂ : List (List TxPkt)) (pkts : List TxPkt),
      wires o₁ = bursts₁.map wire ∧ wires o₂ = bursts₂.map wire ∧
        Levels.Serves TxPkt.prio s.txq.queuelist
          (bursts₁.flatten ++ bursts₂.flatten ++ (pkts ++ s.pc.held))
          (accepted (o₁ ++ .flow ret :: o₂)) ∧
        (bursts₂.flatten.length : Int) ≤ max (ret - dataFlowCtrlThresh) 0 := by
  obtain ⟨pkts, acts, -, hacts, hshown, hflow⟩ := run_sender hrun
  obtain ⟨l, m, hlm, hl, hm⟩ := exists_grant hshown
  have hgrant : ∀ r, .grant r ∉ m := fun r hr => hnext (r + 2) (flow_mem_of_grant_mem hm hr)
  have hbursts : (Batch.burstsOf acts).flatten =
      (Batch.burstsOf l).flatten ++ (Batch.burstsOf m).flatten := by
    rw [hlm, Batch.burstsOf, List.filterMap_append, List.flatten_append]
    rfl
  refine ⟨hflow ret (by simp), Batch.burstsOf l, Batch.burstsOf m, pkts,
    (map_wire_burstsOf hl).symm, (map_wire_burstsOf hm).symm, ?_, hacts.sent_le hlm hgrant⟩
  rw [← hbursts, ← putOf_eq_accepted hshown]
  exact hacts.serves

theorem tx_within_credit_two : ∃ bursts : List (List TxPkt),
    [wire [sampleTx 5, sampleTx 0]] = bursts.map wire ∧ (bursts.flatten.length : Int) ≤ 30 := by
  obtain ⟨s, hrun⟩ := exists_sampleSend
  have hnext : ∀ r, TxOut.flow r ∉ [TxOut.burst (wire [sampleTx 5, sampleTx 0]) .sent] := by simp
  obtain ⟨-, -, bursts, -, -, hwires, -, hle⟩ :=
    @tx_within_credit 32 s _ [.accept (sampleTx 0), .accept (sampleTx 5)] _ 32 hrun hnext
  exact ⟨bursts, hwires, hle⟩

/-- If the buffer has room for so many packets of the greatest length as `aicwf_sdio_flow_ctrl` may
allow, it never runs over, and a burst with all of its last block is taken from it. -/
theorem tx_buffer_bounded {longest : Nat}
    (hfit : max (min cap 127 - 2) 0 * (32 + roundup longest txAlignment : Nat) + tailLen ≤
      maxAggrTxpktLen)
    (hrun : run (TxPriv.step cap) .init es = some (s, out))
    (hlen : ∀ pkt ∈ accepted out, pkt.body.length ≤ longest) :
    s.aggrBuf.length + tailLen ≤ maxAggrTxpktLen ∧
      ∀ bytes ∈ wires out, roundup bytes.length txpktBlocksize ≤ maxAggrTxpktLen := by
  obtain ⟨pkts, acts, hinv, hacts, hshown, hflow⟩ := run_sender hrun
  have hbody := body_le_of_serves hacts.serves (putOf_eq_accepted hshown ▸ hlen)
  have hgrant : ∀ r, .grant r ∈ acts → r ≤ max (min cap 127 - 2) 0 := by
    intro r hr
    have := hflow (r + 2) (flow_mem_of_grant_mem hshown hr)
    omega
  have hstart : (-2 : Int) ≤ max (min cap 127 - 2) 0 := by omega
  constructor
  · have hbatch : (pkts.length : Int) ≤ max (min cap 127 - 2) 0 := by
      have hlength : pkts.length ≤ (pkts ++ s.pc.held).length := by
        rw [List.length_append]
        exact Nat.le_add_right _ _
      have hcredit := hacts.credit_le hstart hgrant
      rcases hacts.batch_le with hnil | hle
      · rw [List.append_eq_nil_iff.mp hnil |>.1]
        exact Int.le_max_right _ 0
      · change ((pkts ++ s.pc.held).length : Int) ≤ _ at hle
        omega
    rw [hinv.buf]
    refine fits (fun pkt hpkt => hbody pkt ?_) hbatch hfit
    exact List.mem_append_right _ (List.mem_append_left _ hpkt)
  · intro bytes hbytes
    rw [← map_wire_burstsOf hshown] at hbytes
    obtain ⟨xs, hxs, rfl⟩ := List.mem_map.mp hbytes
    have hbatch := hacts.burst_le hstart hgrant xs hxs
    have hle := fits (fun pkt hpkt => hbody pkt (List.mem_append_left _
      (List.mem_flatten_of_mem hxs hpkt))) hbatch hfit
    have hwire := length_wire_le xs
    unfold roundup txpktBlocksize
    unfold maxAggrTxpktLen at hle ⊢
    omega

/-- With `tx_aggr_counter` as it is by default, packets of up to 3244 bytes fit. -/
theorem tx_buffer_bounded_two : ∃ s, run (TxPriv.step 32) .init (sampleStart ++ sampleSend) =
      some (s, sampleOut) ∧
    s.aggrBuf.length + tailLen ≤ maxAggrTxpktLen ∧
      ∀ bytes ∈ wires sampleOut, roundup bytes.length txpktBlocksize ≤ maxAggrTxpktLen := by
  obtain ⟨s, hrun⟩ := exists_sampleSend
  exact ⟨s, hrun, @tx_buffer_bounded 32 s _ _ 3244 (by decide) hrun (by decide)⟩

end Runs

end Aic
