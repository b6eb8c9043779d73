import LuckfoxPico.Aic.Proofs.TxPathProofs

/-!
# Proofs: the transmit path sends in batches on credit

The thread with its buffer is a sender that takes the oldest packet of the highest priority, gathers
what it takes in a batch, and sends no more than the firmware has room for.
-/

namespace Aic

open Machine

/-- What the thread has taken off the queue and not yet gathered. -/
def TxPc.held : TxPc → List TxPkt
  | .aggr pkt _ => [pkt]
  | _ => []

/-- The packets that are off the queue and still counted. -/
def TxPc.owed : TxPc → Nat
  | .aggr _ _ | .dec _ => 1
  | _ => 0

/-- Where the thread may be with `pkts` in the buffer. With packets in it, the thread waits only for
a bus that is down; on its way through the loop, there is more to take and room for it. -/
def TxPriv.At (s : TxPriv) (pkts : List TxPkt) : Prop :=
  match s.pc with
  | .wait | .woken | .stopped => pkts = [] ∨ s.busUp = false
  | .test | .process | .pwr | .wake | .cmd | .msg | .data | .fetch | .flow => pkts = []
  | .loop => pkts = [] ∨ 0 < s.txq.qcnt ∧ (pkts.length : Int) < s.fwAvailBufcnt - 2
  | .up | .room =>
    0 < s.txq.qcnt ∧ (pkts = [] ∨ (pkts.length : Int) < s.fwAvailBufcnt - 2)
  | .send _ => 0 < s.txq.qcnt ∧ (pkts.length : Int) < s.fwAvailBufcnt - 2
  | .aggr _ _ => 0 < s.txPktcnt ∧ (pkts.length : Int) < s.fwAvailBufcnt - 2
  | .dec txnow => 0 < s.txPktcnt ∧
    (pkts = [] ∨ txnow = false ∧ 0 < s.txq.qcnt ∧ (pkts.length : Int) < s.fwAvailBufcnt - 2)

/-- What holds between two steps, with `pkts` in the buffer. -/
structure TxInv (s : TxPriv) (pkts : List TxPkt) : Prop where
  queue : s.txq.Inv
  placed : Levels.Placed TxPkt.prio s.txq.queuelist
  buf : s.aggrBuf = pkts.flatMap TxPkt.frame
  count : s.aggrCount = pkts.length
  total : s.txPktcnt + s.counting.toNat = s.txq.qcnt + s.pc.owed
  here : s.At pkts

/-- The sender in batches that the transmit path is. -/
def TxPriv.sender (s : TxPriv) (pkts : List TxPkt) : Batch.State TxPkt where
  levels := s.txq.queuelist
  batch := pkts ++ s.pc.held
  credit := s.fwAvailBufcnt - 2

/-- What a burst of packets looks like. -/
def wire (pkts : List TxPkt) : List UInt8 :=
  let bytes := pkts.flatMap TxPkt.frame
  if bytes.length % txpktBlocksize ≠ 0 then bytes ++ List.replicate tailLen 0 else bytes

/-- What the sender shows. -/
def shown : Batch.Act TxPkt → Option TxOut
  | .put pkt => some (.accept pkt)
  | .take _ => none
  | .grant r => some (.flow (r + 2))
  | .burst pkts => some (.burst (wire pkts) .sent)

/-- What is to be seen of the sender, which does not know how a transfer ends. -/
def TxOut.seen : TxOut → Option TxOut
  | .refuse _ | .msg => none
  | .burst bytes _ => some (.burst bytes .sent)
  | o => some o

theorem txInv_init : TxInv .init [] where
  queue := FrameQueue.inv_init _
  placed := fun _ _ h => nomatch h
  buf := rfl
  count := rfl
  total := rfl
  here := Or.inl rfl

section Steps

variable {cap : Int} {s s' : TxPriv} {out : List TxOut} {pkts : List TxPkt} {pc : TxPc}

theorem flatMap_frame_aligned (pkts : List TxPkt) : (pkts.flatMap TxPkt.frame).length % 4 = 0 := by
  induction pkts with
  | nil => rfl
  | cons pkt pkts ih =>
    have := frame_aligned pkt
    rw [List.flatMap_cons, List.length_append]
    omega

theorem TxInv.aligned (h : TxInv s pkts) : s.aggrBuf.length % 4 = 0 :=
  h.buf ▸ flatMap_frame_aligned pkts

theorem TxInv.gather (h : TxInv s pkts) (pkt : TxPkt) :
    (s.aggrPkt pkt).aggrBuf = (pkts ++ [pkt]).flatMap TxPkt.frame ∧
      (s.aggrPkt pkt).aggrCount = (pkts ++ [pkt]).length := by
  constructor
  · rw [aggrPkt_aggrBuf h.aligned, h.buf, List.flatMap_append, List.flatMap_singleton]
  · change s.aggrCount + 1 = _
    rw [h.count, List.length_append, List.length_singleton]

/-- The buffer and its count agree. -/
theorem TxInv.count_eq_zero_iff (h : TxInv s pkts) : s.aggrCount = 0 ↔ s.aggrBuf.length = 0 := by
  rw [h.count, h.buf]
  cases pkts with
  | nil => simp
  | cons pkt pkts =>
    have := length_frame pkt
    simp only [List.length_cons, List.flatMap_cons, List.length_append]
    omega

/-- In `aicwf_sdio_send`, the buffer is as it should be and there is room. -/
theorem TxInv.not_astray (h : TxInv s pkts) {txnow : Bool} (hpc : s.pc = .send txnow) :
    ¬ ((s.aggrCount = 0 ∧ s.aggrBuf.length ≠ 0) ∨ (s.aggrCount ≠ 0 ∧ s.aggrBuf.length = 0) ∨
      s.gathered) := by
  have hiff := h.count_eq_zero_iff
  have hhere := h.here
  simp only [TxPriv.At, hpc] at hhere
  have hg : ¬ s.gathered := by
    unfold TxPriv.gathered dataFlowCtrlThresh
    rw [h.count]
    omega
  tauto

theorem TxInv.not_takeNone (h : TxInv s pkts) {txnow : Bool} (hpc : s.pc = .send txnow)
    {txq : FrameQueue TxPkt} : s.txq.dequeue ≠ (none, txq) := by
  intro hd
  have hhere := h.here
  simp only [TxPriv.At, hpc] at hhere
  obtain ⟨-, -, ⟨-, h0, -⟩ | ⟨p, x, hx, -⟩⟩ := h.queue.dequeue hd
  · omega
  · cases hx

/-- The moves of the thread lead to where it may be. -/
theorem TxInv.goto (h : TxInv s pkts) (hg : Goto s s.pc pc) :
    TxInv { s with pc := pc } pkts ∧ s.pc.held = pc.held := by
  have hempty := h.queue.isEmpty_iff
  have hhere := h.here
  have htotal := h.total
  suffices hsuff : ({ s with pc := pc } : TxPriv).At pkts ∧ s.pc.owed = pc.owed ∧
      s.pc.held = pc.held by
    obtain ⟨hat, howed, hheld⟩ := hsuff
    exact ⟨{ h with
      total := by simpa [← howed] using htotal
      here := hat }, hheld⟩
  generalize hpc : s.pc = pc₀ at hg
  simp only [TxPriv.At, hpc] at hhere
  cases hg with
  | start hup => exact ⟨hhere.resolve_right (by simp [hup]), rfl, rfl⟩
  | stopped hup => exact ⟨Or.inr hup, rfl, rfl⟩
  | work | process | pwr | pwrDown | message | noMessage | awake | fetchSome =>
    exact ⟨hhere, rfl, rfl⟩
  | idle | processDown | asleepMsg | asleep | fetchNone => exact ⟨Or.inl hhere, rfl, rfl⟩
  | more hne =>
    have hpos : 0 < s.txq.qcnt := Nat.pos_of_ne_zero fun h0 => by simp [hempty.mpr h0] at hne
    exact ⟨⟨hpos, hhere.imp_right And.right⟩, rfl, rfl⟩
  | done he =>
    have h0 := hempty.mp he
    exact ⟨Or.inl (hhere.resolve_right (by omega)), rfl, rfl⟩
  | up => exact ⟨hhere, rfl, rfl⟩
  | upDown hup => exact ⟨Or.inr hup, rfl, rfl⟩
  | yield havail _ => exact ⟨Or.inl (hhere.2.resolve_right (by omega)), rfl, rfl⟩
  | refill havail => exact ⟨hhere.2.resolve_right (by omega), rfl, rfl⟩
  | send havail =>
    refine ⟨⟨hhere.1, ?_⟩, rfl, rfl⟩
    rcases hhere.2 with rfl | hroom
    · simp only [List.length_nil]
      omega
    · exact hroom

/-- What the others do, and what the bus does, leaves the thread where it may be. -/
theorem at_mono (h : s.At pkts) (hpc : s'.pc = s.pc) (hup : s.busUp = false → s'.busUp = false)
    (havail : s'.fwAvailBufcnt = s.fwAvailBufcnt) (hqcnt : s.txq.qcnt ≤ s'.txq.qcnt)
    (hcnt : s.txPktcnt ≤ s'.txPktcnt) : s'.At pkts := by
  unfold TxPriv.At at h ⊢
  rw [hpc, havail]
  cases hs : s.pc with
  | wait | woken | stopped =>
    rw [hs] at h
    exact h.imp_right hup
  | test | process | pwr | wake | cmd | msg | data | fetch | flow =>
    rw [hs] at h
    exact h
  | loop =>
    rw [hs] at h
    exact h.imp_right fun h => ⟨Nat.lt_of_lt_of_le h.1 hqcnt, h.2⟩
  | up | room =>
    rw [hs] at h
    exact ⟨Nat.lt_of_lt_of_le h.1 hqcnt, h.2⟩
  | send txnow =>
    rw [hs] at h
    exact ⟨Nat.lt_of_lt_of_le h.1 hqcnt, h.2⟩
  | aggr pkt txnow =>
    rw [hs] at h
    exact ⟨Nat.lt_of_lt_of_le h.1 hcnt, h.2⟩
  | dec txnow =>
    rw [hs] at h
    exact ⟨Nat.lt_of_lt_of_le h.1 hcnt,
      h.2.imp_right fun h => ⟨h.1, Nat.lt_of_lt_of_le h.2.1 hqcnt, h.2.2⟩⟩

theorem TxInv.enqueue (h : TxInv s pkts) {pkt : TxPkt} {txq : FrameQueue TxPkt}
    (hlock : s.counting = false) (henq : s.txq.enq pkt.prio pkt = some txq) :
    TxInv { s with txq := txq, counting := true } pkts ∧
      Batch.Step TxPkt.prio (s.sender pkts) (.put pkt)
        ({ s with txq := txq, counting := true }.sender pkts) := by
  obtain ⟨hq, hlist, hqcnt, -⟩ := h.queue.enq henq
  have htotal := h.total
  constructor
  · refine ⟨hq, ?_, h.buf, h.count, ?_, ?_⟩
    · rw [hlist]
      exact h.placed.push pkt
    · rw [hlock] at htotal
      change s.txPktcnt + 1 = txq.qcnt + s.pc.owed
      change s.txPktcnt + 0 = s.txq.qcnt + s.pc.owed at htotal
      omega
    · refine at_mono h.here rfl id rfl ?_ (Nat.le_refl _)
      change s.txq.qcnt ≤ txq.qcnt
      omega
  · have hsender : ({ s with txq := txq, counting := true } : TxPriv).sender pkts =
        { s.sender pkts with levels := Levels.push s.txq.queuelist pkt.prio pkt } := by
      rw [← hlist]
      rfl
    rw [hsender]
    exact .put _ pkt

theorem TxInv.take (h : TxInv s pkts) {txnow : Bool} (hpc : s.pc = .send txnow) {pkt : TxPkt}
    {txq : FrameQueue TxPkt} (hlock : s.counting = false) (hd : s.txq.dequeue = (some pkt, txq)) :
    TxInv { s with txq := txq, pc := .aggr pkt txnow } pkts ∧
      Batch.Step TxPkt.prio (s.sender pkts) (.take pkt)
        ({ s with txq := txq, pc := .aggr pkt txnow }.sender pkts) := by
  obtain ⟨hq, -, ⟨hnone, -⟩ | ⟨p, x, hx, htop, hlist, hqcnt⟩⟩ := h.queue.dequeue hd
  · cases hnone
  · obtain rfl := Option.some.inj hx
    obtain rfl := h.placed.level_eq htop.1
    have htotal := h.total
    have hhere := h.here
    simp only [TxPriv.At, hpc] at hhere
    rw [hlock, hpc] at htotal
    change s.txPktcnt + 0 = s.txq.qcnt + 0 at htotal
    constructor
    · refine ⟨hq, ?_, h.buf, h.count, ?_, ?_⟩
      · rw [hlist]
        exact h.placed.pop
      · change s.txPktcnt + s.counting.toNat = txq.qcnt + 1
        rw [hlock]
        change s.txPktcnt + 0 = _
        omega
      · exact ⟨by change 0 < s.txPktcnt; omega, hhere.2⟩
    · have hbatch : (s.sender pkts).batch = pkts := by simp [TxPriv.sender, hpc, TxPc.held]
      have hsender : ({ s with txq := txq, pc := .aggr pkt txnow } : TxPriv).sender pkts =
          { s.sender pkts with
            levels := Levels.pop s.txq.queuelist pkt.prio
            batch := (s.sender pkts).batch ++ [pkt] } := by
        rw [← hlist, hbatch]
        rfl
      rw [hsender]
      refine .take _ pkt htop ?_
      rw [hbatch]
      exact hhere.2

/-- The packet is gathered, to be sent with the next ones. -/
theorem TxInv.gathered (h : TxInv s pkts) {txnow : Bool} {pkt : TxPkt}
    (hpc : s.pc = .aggr pkt txnow)
    (hkeep : ¬ (s.txPktcnt = 1 ∨ txnow = true ∨ (s.aggrPkt pkt).gathered)) :
    TxInv { s.aggrPkt pkt with pc := .dec txnow } (pkts ++ [pkt]) := by
  obtain ⟨hbuf, hcount⟩ := h.gather pkt
  have htotal := h.total
  have hhere := h.here
  simp only [TxPriv.At, hpc] at hhere
  rw [hpc] at htotal
  change s.txPktcnt + s.counting.toNat = s.txq.qcnt + 1 at htotal
  have hc := s.counting.toNat_le
  refine ⟨h.queue, h.placed, hbuf, hcount, htotal, hhere.1, Or.inr ⟨?_, ?_, ?_⟩⟩
  · simpa using fun he => hkeep (Or.inr (Or.inl he))
  · have hne : s.txPktcnt ≠ 1 := fun he => hkeep (Or.inl he)
    change 0 < s.txq.qcnt
    omega
  · have hg : ¬ ((s.aggrPkt pkt).aggrCount : Int) = s.fwAvailBufcnt - 2 :=
      fun he => hkeep (Or.inr (Or.inr he))
    rw [hcount, List.length_append, List.length_singleton] at hg
    change ((pkts ++ [pkt]).length : Int) < s.fwAvailBufcnt - 2
    rw [List.length_append, List.length_singleton]
    omega

/-- The packet is gathered and handed over with the others. -/
theorem TxInv.burst (h : TxInv s pkts) {txnow ok : Bool} {pkt : TxPkt}
    (hpc : s.pc = .aggr pkt txnow) :
    TxInv { ((s.aggrPkt pkt).aggrSend ok).1 with pc := .dec txnow } [] ∧
      Batch.Step TxPkt.prio (s.sender pkts) (.burst (pkts ++ [pkt]))
        ({ ((s.aggrPkt pkt).aggrSend ok).1 with pc := .dec txnow }.sender []) ∧
      ((s.aggrPkt pkt).aggrSend ok).2 = [.burst (wire (pkts ++ [pkt])) (s.txpkt ok)] := by
  obtain ⟨hbuf, hcount⟩ := h.gather pkt
  have htotal := h.total
  have hhere := h.here
  simp only [TxPriv.At, hpc] at hhere
  rw [hpc] at htotal
  refine ⟨⟨h.queue, h.placed, rfl, rfl, htotal, hhere.1, Or.inl rfl⟩, ?_, ?_⟩
  · have hbatch : (s.sender pkts).batch = pkts ++ [pkt] := by
      simp [TxPriv.sender, hpc, TxPc.held]
    have hsender : ({ ((s.aggrPkt pkt).aggrSend ok).1 with pc := .dec txnow } : TxPriv).sender [] =
        { s.sender pkts with
          batch := []
          credit := (s.sender pkts).credit - (s.sender pkts).batch.length } := by
      have hcredit : s.fwAvailBufcnt - (s.aggrPkt pkt).aggrCount - 2 =
          s.fwAvailBufcnt - 2 - (s.sender pkts).batch.length := by
        rw [hcount, hbatch]
        omega
      change Batch.State.mk s.txq.queuelist [] _ = Batch.State.mk s.txq.queuelist [] _
      rw [← show s.fwAvailBufcnt - 2 = (s.sender pkts).credit from rfl, ← hcredit]
      rfl
    rw [hsender, ← hbatch]
    exact .burst _ (by simp [hbatch])
  · rw [TxPriv.aggrSend, hbuf]
    rfl

/-- A step of the transmit path is at most one step of the sender. -/
theorem TxInv.step (h : TxInv s pkts) (he : TxEffect cap s out s') :
    ∃ pkts' acts, TxInv s' pkts' ∧
      Batch.Run TxPkt.prio (s.sender pkts) acts (s'.sender pkts') ∧
        acts.filterMap shown = out.filterMap TxOut.seen := by
  have htotal := h.total
  have hhere := h.here
  cases he with
  | refuse | txmsg | txmsgBus | trigger | pwrctl | wakeup =>
    exact ⟨pkts, [], ⟨h.queue, h.placed, h.buf, h.count, h.total, h.here⟩, .start, rfl⟩
  | enqueue pkt txq hlock henq =>
    obtain ⟨hinv, hput⟩ := h.enqueue hlock henq
    exact ⟨pkts, [.put pkt], hinv, .single hput, rfl⟩
  | count hc =>
    refine ⟨pkts, [], ⟨h.queue, h.placed, h.buf, h.count, ?_, ?_⟩, .start, rfl⟩
    · rw [hc] at htotal
      exact htotal
    · exact at_mono h.here rfl id rfl (Nat.le_refl _) (Nat.le_succ _)
  | busDown =>
    exact ⟨pkts, [], ⟨h.queue, h.placed, h.buf, h.count, h.total,
      at_mono h.here rfl (fun _ => rfl) rfl (Nat.le_refl _) (Nat.le_refl _)⟩, .start, rfl⟩
  | wait hpc | activate hpc | msg hpc =>
    simp only [TxPriv.At, hpc] at hhere
    rw [hpc] at htotal
    refine ⟨pkts, [], ⟨h.queue, h.placed, h.buf, h.count, htotal, hhere⟩, ?_, rfl⟩
    rw [TxPriv.sender, hpc]
    exact .start
  | goto pc hg =>
    obtain ⟨hinv, hheld⟩ := h.goto hg
    refine ⟨pkts, [], hinv, ?_, rfl⟩
    rw [TxPriv.sender, hheld]
    exact .start
  | flow reads ret hpc _ =>
    simp only [TxPriv.At, hpc] at hhere
    subst hhere
    rw [hpc] at htotal
    refine ⟨[], [.grant (ret - 2)],
      ⟨h.queue, h.placed, h.buf, h.count, htotal, Or.inl rfl⟩, ?_, ?_⟩
    · have hbatch : (s.sender []).batch = [] := by simp [TxPriv.sender, hpc, TxPc.held]
      have hsender : ({ s with fwAvailBufcnt := ret, pc := .loop } : TxPriv).sender [] =
          { s.sender [] with credit := ret - 2 } := by
        change Batch.State.mk s.txq.queuelist [] _ = Batch.State.mk _ (s.sender []).batch _
        rw [hbatch]
        rfl
      rw [hsender]
      exact .single (.grant _ (ret - 2) hbatch)
    · simp [shown, TxOut.seen]
  | astray txnow out s' hpc hodd => exact absurd hodd (h.not_astray hpc)
  | takeNone txnow txq hpc hd => exact absurd hd (h.not_takeNone hpc)
  | take txnow pkt txq hpc hlock hd =>
    obtain ⟨hinv, htake⟩ := h.take hpc hlock hd
    exact ⟨pkts, [.take pkt], hinv, .single htake, rfl⟩
  | gather pkt txnow hpc hkeep =>
    refine ⟨pkts ++ [pkt], [], h.gathered hpc hkeep, ?_, rfl⟩
    have hsender : s.sender pkts =
        ({ s.aggrPkt pkt with pc := .dec txnow } : TxPriv).sender (pkts ++ [pkt]) := by
      simp [TxPriv.sender, hpc, TxPc.held, TxPriv.aggrPkt]
    rw [hsender]
    exact .start
  | burst pkt txnow ok hpc =>
    obtain ⟨hinv, hburst, hout⟩ := @TxInv.burst _ _ h txnow ok pkt hpc
    exact ⟨[], [.burst (pkts ++ [pkt])], hinv, .single hburst, by rw [hout]; rfl⟩
  | dec txnow hpc =>
    simp only [TxPriv.At, hpc] at hhere
    rw [hpc] at htotal
    change s.txPktcnt + s.counting.toNat = s.txq.qcnt + 1 at htotal
    refine ⟨pkts, [], ⟨h.queue, h.placed, h.buf, h.count, ?_, ?_⟩, ?_, rfl⟩
    · cases txnow <;> change s.txPktcnt - 1 + s.counting.toNat = s.txq.qcnt + 0 <;> omega
    · cases txnow with
      | true => exact Or.inl (hhere.2.resolve_right fun h => Bool.noConfusion h.1)
      | false => exact hhere.2.imp_right And.right
    · have hsender : s.sender pkts =
          ({ s with txPktcnt := s.txPktcnt - 1, pc := .next txnow } : TxPriv).sender pkts := by
        cases txnow <;> simp [TxPriv.sender, hpc, TxPc.held, TxPc.next]
      rw [hsender]
      exact .start

end Steps

end Aic
