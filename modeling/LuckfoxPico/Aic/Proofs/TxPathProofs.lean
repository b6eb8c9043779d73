import LuckfoxPico.Aic.TxPath
import LuckfoxPico.Aic.Proofs.FrameQueueProofs
import LuckfoxPico.Machine.Proofs.RunsProofs
import LuckfoxPico.Queue.Proofs.BatchProofs

/-!
# Proofs: the steps of the transmit path

What a step can do, and the frames in the buffer.
-/

namespace Aic

/-! ## Frames -/

/-- The length of a frame behind its header. -/
def TxPkt.frameLen (pkt : TxPkt) : Nat :=
  roundup (txdescLen + pkt.body.length) txAlignment

/-- A packet in the buffer. -/
def TxPkt.frame (pkt : TxPkt) : List UInt8 :=
  [UInt8.ofNat (pkt.frameLen % 256), UInt8.ofNat (pkt.frameLen / 256 % 16), 0x01, 0] ++ pkt.desc ++
    pkt.body ++ List.replicate (pkt.frameLen - (txdescLen + pkt.body.length)) 0

section Frames

variable {pkt : TxPkt}

theorem roundup_four (n : Nat) : roundup n txAlignment = (n + 3) / 4 * 4 := rfl

theorem length_frame (pkt : TxPkt) : pkt.frame.length = 4 + pkt.frameLen := by
  have hdesc := pkt.desc_length
  have hle : txdescLen + pkt.body.length ≤ pkt.frameLen := by
    rw [TxPkt.frameLen, roundup_four]
    omega
  simp only [TxPkt.frame, List.length_append, List.length_cons, List.length_nil,
    List.length_replicate, hdesc]
  omega

theorem frame_aligned (pkt : TxPkt) : pkt.frame.length % 4 = 0 := by
  rw [length_frame, TxPkt.frameLen, roundup_four]
  omega

theorem set_header (a d b p : List UInt8) (x y z w m n : UInt8) :
    ((a ++ [x, y, z, w] ++ d ++ b ++ p).set a.length m).set (a.length + 1) n =
      a ++ ([m, n, z, w] ++ d ++ b ++ p) := by
  simp

/-- As long as the buffer is aligned, a packet is appended as its frame. -/
theorem aggrPkt_aggrBuf {s : TxPriv} (halign : s.aggrBuf.length % 4 = 0) :
    (s.aggrPkt pkt).aggrBuf = s.aggrBuf ++ pkt.frame := by
  have hdesc := pkt.desc_length
  have hle : txdescLen + pkt.body.length ≤ pkt.frameLen := by
    rw [TxPkt.frameLen, roundup_four]
    omega
  have hlen : ∀ x y : UInt8, (s.aggrBuf ++ [x, y, 0x01, 0] ++ pkt.desc ++ pkt.body).length =
      s.aggrBuf.length + 4 + (txdescLen + pkt.body.length) := by
    intro x y
    simp only [List.length_append, List.length_cons, List.length_nil, hdesc]
    omega
  have hpad : roundup (s.aggrBuf.length + 4 + (txdescLen + pkt.body.length)) txAlignment -
      (s.aggrBuf.length + 4 + (txdescLen + pkt.body.length)) =
        pkt.frameLen - (txdescLen + pkt.body.length) := by
    rw [TxPkt.frameLen, roundup_four, roundup_four]
    omega
  have hput : ∀ x y : UInt8, (s.aggrBuf ++ [x, y, 0x01, 0] ++ pkt.desc ++ pkt.body ++
      List.replicate (pkt.frameLen - (txdescLen + pkt.body.length)) 0).length -
        s.aggrBuf.length - 4 = pkt.frameLen := by
    intro x y
    rw [List.length_append, hlen, List.length_replicate]
    omega
  rw [TxPriv.aggrPkt]
  simp only [hlen, hpad, hput]
  exact set_header _ _ _ _ _ _ _ _ _ _

end Frames

/-! ## What a step does -/

/-- The moves of the thread that change nothing else. -/
inductive Goto (s : TxPriv) : TxPc → TxPc → Prop
  | start (hup : s.busUp = true) : Goto s .woken .test
  | stopped (hup : s.busUp = false) : Goto s .woken .stopped
  | work (h : 0 < s.txPktcnt ∨ s.cmdTxstate = true) : Goto s .test .process
  | idle (h : s.txPktcnt = 0) (hcmd : s.cmdTxstate = false) : Goto s .test .wait
  | process : Goto s .process .pwr
  | processDown (hup : s.busUp = false) : Goto s .process .wait
  | pwr : Goto s .pwr .wake
  | pwrDown (hup : s.busUp = false) : Goto s .pwr .cmd
  | message (hcmd : s.cmdTxstate = true) : Goto s .cmd .msg
  | noMessage (hcmd : s.cmdTxstate = false) : Goto s .cmd .data
  | asleepMsg (h : s.active = false) : Goto s .msg .wait
  | awake (h : s.active = true) : Goto s .data .fetch
  | asleep (h : s.active = false) : Goto s .data .wait
  | fetchNone (h : s.txq.isEmpty = true) : Goto s .fetch .loop
  | fetchSome : Goto s .fetch .flow
  | more (h : s.txq.isEmpty = false) : Goto s .loop .up
  | done (h : s.txq.isEmpty = true) : Goto s .loop .wait
  | up : Goto s .up .room
  | upDown (hup : s.busUp = false) : Goto s .up .wait
  | yield (havail : s.fwAvailBufcnt ≤ 2) (hcmd : s.cmdTxstate = true) : Goto s .room .wait
  | refill (havail : s.fwAvailBufcnt ≤ 2) : Goto s .room .flow
  | send (havail : 2 < s.fwAvailBufcnt) : Goto s .room (.send s.cmdTxstate)

/-- The moves of the power control. -/
inductive Pwr (s : TxPriv) : PwrPc → Bool → Prop
  | back (h : s.pwr ≠ .sleep) : Pwr s .idle s.active
  | look (h : s.pwr = .idle) (hact : s.active = true) : Pwr s .pktcnt s.active
  | quiet (h : s.pwr = .pktcnt) (hcnt : s.txPktcnt = 0) : Pwr s .cmd s.active
  | allow (h : s.pwr = .cmd) (hcmd : s.cmdTxstate = false) : Pwr s .sleep s.active
  | sleep (h : s.pwr = .sleep) : Pwr s .idle false

/-- The steps that are possible in a state: what they need, what they put out, where they lead. -/
inductive TxEffect (cap : Int) (s : TxPriv) : List TxOut → TxPriv → Prop
  | refuse (pkt) : TxEffect cap s [.refuse pkt] s
  | enqueue (pkt txq) (hlock : s.counting = false) (henq : s.txq.enq pkt.prio pkt = some txq) :
      TxEffect cap s [.accept pkt] { s with txq := txq, counting := true }
  | count (h : s.counting = true) :
      TxEffect cap s [] { s with counting := false
                                 txPktcnt := s.txPktcnt + 1
                                 triggering := s.triggering + 1 }
  | txmsg : TxEffect cap s [] { s with cmdTxstate := true, messaging := s.messaging + 1 }
  | txmsgBus (h : s.messaging ≠ 0) : TxEffect cap s []
      { s with messaging := s.messaging - 1
               triggering := if s.busUp then s.triggering + 1 else s.triggering }
  | trigger (h : s.triggering ≠ 0) :
      TxEffect cap s [] { s with triggering := s.triggering - 1, bustxTrgg := s.bustxTrgg + 1 }
  | pwrctl (pwr act) (h : Pwr s pwr act) : TxEffect cap s [] { s with pwr := pwr, active := act }
  | wakeup (h : s.pwr = .idle) : TxEffect cap s [] { s with active := true }
  | busDown : TxEffect cap s [] { s with busUp := false }
  | wait (hpc : s.pc = .wait) (h : s.bustxTrgg ≠ 0) :
      TxEffect cap s [] { s with bustxTrgg := s.bustxTrgg - 1, pc := .woken }
  | goto (pc) (h : Goto s s.pc pc) : TxEffect cap s [] { s with pc := pc }
  | activate (hpc : s.pc = .wake) (h : s.pwr = .idle) :
      TxEffect cap s [] { s with active := true, pc := .cmd }
  | msg (hpc : s.pc = .msg) :
      TxEffect cap s [.msg] { s with cmdTxstate := false, pc := .data }
  | flow (reads ret) (hpc : s.pc = .flow) (h : flowCtrl cap 0 reads = some ret) :
      TxEffect cap s [.flow ret] { s with fwAvailBufcnt := ret, pc := .loop }
  /-- This needs a buffer that disagrees with its count, or that should have been sent before. -/
  | astray (txnow out s') (hpc : s.pc = .send txnow)
      (h : (s.aggrCount = 0 ∧ s.aggrBuf.length ≠ 0) ∨ (s.aggrCount ≠ 0 ∧ s.aggrBuf.length = 0) ∨
        s.gathered) : TxEffect cap s out s'
  | takeNone (txnow txq) (hpc : s.pc = .send txnow) (h : s.txq.dequeue = (none, txq)) :
      TxEffect cap s [] { s with txq := txq, pc := .next txnow }
  | take (txnow pkt txq) (hpc : s.pc = .send txnow) (hlock : s.counting = false)
      (h : s.txq.dequeue = (some pkt, txq)) :
      TxEffect cap s [] { s with txq := txq, pc := .aggr pkt txnow }
  | gather (pkt txnow) (hpc : s.pc = .aggr pkt txnow)
      (h : ¬ (s.txPktcnt = 1 ∨ txnow = true ∨ (s.aggrPkt pkt).gathered)) :
      TxEffect cap s [] { s.aggrPkt pkt with pc := .dec txnow }
  | burst (pkt txnow ok) (hpc : s.pc = .aggr pkt txnow) :
      TxEffect cap s ((s.aggrPkt pkt).aggrSend ok).2
        { ((s.aggrPkt pkt).aggrSend ok).1 with pc := .dec txnow }
  | dec (txnow) (hpc : s.pc = .dec txnow) :
      TxEffect cap s [] { s with txPktcnt := s.txPktcnt - 1, pc := .next txnow }

section Effects

variable {cap : Int} {s s' : TxPriv} {out : List TxOut}

theorem pwrctl_of_sleepAllow {allow : Bool} :
    TxEffect cap s [] (s.sleepAllow allow) := by
  have hback : s.pwr ≠ .sleep → TxEffect cap s [] { s with pwr := .idle } :=
    fun h => .pwrctl .idle s.active (.back h)
  unfold TxPriv.sleepAllow
  cases hpwr : s.pwr with
  | idle =>
    by_cases hlook : (s.busUp && s.active && allow) = true
    · simp only [hlook]
      simp only [Bool.and_eq_true] at hlook
      exact .pwrctl .pktcnt s.active (.look hpwr hlook.1.2)
    · simp only [if_neg hlook]
      exact hback (by simp [hpwr])
  | pktcnt =>
    by_cases hcnt : s.txPktcnt = 0
    · simp only [if_pos hcnt]
      exact .pwrctl .cmd s.active (.quiet hpwr hcnt)
    · simp only [if_neg hcnt]
      exact hback (by simp [hpwr])
  | cmd =>
    by_cases hcmd : (!s.cmdTxstate && allow) = true
    · simp only [if_pos hcmd]
      simp only [Bool.and_eq_true, Bool.not_eq_true'] at hcmd
      exact .pwrctl .sleep s.active (.allow hpwr hcmd.1)
    · simp only [if_neg hcmd]
      exact hback (by simp [hpwr])
  | sleep => exact .pwrctl .idle false (.sleep hpwr)

theorem effect_of_send {txnow ok : Bool} (hpc : s.pc = .send txnow)
    (h : s.send txnow ok = some (s', out)) : TxEffect cap s out s' := by
  unfold TxPriv.send at h
  split at h
  · next hodd => exact .astray txnow out s' hpc (by tauto)
  · split at h
    · next hg => exact .astray txnow out s' hpc (Or.inr (Or.inr hg))
    · split at h
      · cases h
      · next hlock =>
        split at h
        · next txq hd =>
          obtain ⟨rfl, rfl⟩ := Prod.mk.inj (Option.some.inj h)
          exact .takeNone txnow txq hpc hd
        · next pkt txq hd =>
          obtain ⟨rfl, rfl⟩ := Prod.mk.inj (Option.some.inj h)
          exact .take txnow pkt txq hpc (by simpa using hlock) hd

theorem effect_of_thread {ok : Bool} (h : s.thread ok = some (s', out)) :
    TxEffect cap s out s' := by
  have hgoto : ∀ {pc}, Goto s s.pc pc → some ({ s with pc := pc }, []) = some (s', out) →
      TxEffect cap s out s' := by
    intro pc hg h
    obtain ⟨rfl, rfl⟩ := Prod.mk.inj (Option.some.inj h)
    exact .goto pc hg
  have hite : ∀ {b : Bool} {pc pc'}, (b = true → Goto s s.pc pc) → (b = false → Goto s s.pc pc') →
      some ({ s with pc := if b then pc else pc' }, []) = some (s', out) →
        TxEffect cap s out s' := by
    intro b pc pc' htrue hfalse h
    cases b with
    | true => exact hgoto (htrue rfl) h
    | false => exact hgoto (hfalse rfl) h
  unfold TxPriv.thread at h
  cases hpc : s.pc with
  | wait | flow | stopped =>
    rw [hpc] at h
    cases h
  | woken =>
    rw [hpc] at h
    exact hite (fun hup => hpc ▸ .start hup) (fun hup => hpc ▸ .stopped hup) h
  | test =>
    rw [hpc] at h
    refine hite (fun hwork => hpc ▸ .work (by simpa using hwork)) (fun hidle => ?_) h
    simp only [Bool.or_eq_false_iff, decide_eq_false_iff_not, Nat.not_lt, Nat.le_zero] at hidle
    exact hpc ▸ .idle hidle.1 hidle.2
  | process =>
    rw [hpc] at h
    exact hite (fun _ => hpc ▸ .process) (fun hup => hpc ▸ .processDown hup) h
  | pwr =>
    rw [hpc] at h
    exact hite (fun _ => hpc ▸ .pwr) (fun hup => hpc ▸ .pwrDown hup) h
  | wake =>
    simp only [hpc] at h
    split at h
    · next hidle =>
      obtain ⟨rfl, rfl⟩ := Prod.mk.inj (Option.some.inj h)
      exact .activate hpc hidle
    · cases h
  | cmd =>
    rw [hpc] at h
    exact hite (fun hcmd => hpc ▸ .message hcmd) (fun hcmd => hpc ▸ .noMessage hcmd) h
  | msg =>
    simp only [hpc] at h
    split at h
    · obtain ⟨rfl, rfl⟩ := Prod.mk.inj (Option.some.inj h)
      exact .msg hpc
    · next ha => exact hgoto (hpc ▸ .asleepMsg (by simpa using ha)) h
  | data =>
    rw [hpc] at h
    exact hite (fun ha => hpc ▸ .awake ha) (fun ha => hpc ▸ .asleep ha) h
  | fetch =>
    rw [hpc] at h
    exact hite (fun he => hpc ▸ .fetchNone he) (fun _ => hpc ▸ .fetchSome) h
  | loop =>
    rw [hpc] at h
    exact hite (fun he => hpc ▸ .done he) (fun he => hpc ▸ .more he) h
  | up =>
    rw [hpc] at h
    exact hite (fun _ => hpc ▸ .up) (fun hup => hpc ▸ .upDown hup) h
  | room =>
    simp only [hpc] at h
    split at h
    · next havail =>
      exact hite (fun hcmd => hpc ▸ .yield havail hcmd) (fun _ => hpc ▸ .refill havail) h
    · next havail => exact hgoto (hpc ▸ .send (Int.lt_of_not_ge havail)) h
  | send txnow =>
    rw [hpc] at h
    exact effect_of_send hpc h
  | aggr pkt txnow =>
    simp only [hpc, Option.some.injEq, TxPriv.sendPkt] at h
    by_cases hflush : s.txPktcnt = 1 ∨ txnow = true ∨ (s.aggrPkt pkt).gathered
    · rw [if_pos (show (s.aggrPkt pkt).txPktcnt = 1 ∨ _ from hflush)] at h
      obtain ⟨rfl, rfl⟩ := Prod.mk.inj h
      exact .burst pkt txnow ok hpc
    · rw [if_neg (show ¬ ((s.aggrPkt pkt).txPktcnt = 1 ∨ _) from hflush)] at h
      obtain ⟨rfl, rfl⟩ := Prod.mk.inj h
      exact .gather pkt txnow hpc hflush
  | dec txnow =>
    simp only [hpc] at h
    obtain ⟨rfl, rfl⟩ := Prod.mk.inj (Option.some.inj h)
    exact .dec txnow hpc

theorem txEffect_of_step {e : TxEvent} (h : s.step cap e = some (s', out)) :
    TxEffect cap s out s' := by
  cases e with
  | txdata pkt up =>
    simp only [TxPriv.step] at h
    split at h
    · split at h
      · cases h
      · obtain ⟨rfl, rfl⟩ := Prod.mk.inj (Option.some.inj h)
        exact .refuse pkt
    · split at h
      · cases h
      · next hlock =>
        split at h
        · obtain ⟨rfl, rfl⟩ := Prod.mk.inj (Option.some.inj h)
          exact .refuse pkt
        · next txq henq =>
          obtain ⟨rfl, rfl⟩ := Prod.mk.inj (Option.some.inj h)
          exact .enqueue pkt txq (by simpa using hlock) henq
  | count =>
    obtain ⟨hc, h⟩ := Option.ite_none_right_eq_some.mp h
    obtain ⟨rfl, rfl⟩ := Prod.mk.inj (Option.some.inj h)
    exact .count hc
  | txmsg =>
    obtain ⟨rfl, rfl⟩ := Prod.mk.inj (Option.some.inj h)
    exact .txmsg
  | txmsgBus =>
    obtain ⟨hm, h⟩ := Option.ite_none_left_eq_some.mp h
    obtain ⟨rfl, rfl⟩ := Prod.mk.inj (Option.some.inj h)
    exact .txmsgBus hm
  | trigger =>
    obtain ⟨ht, h⟩ := Option.ite_none_left_eq_some.mp h
    obtain ⟨rfl, rfl⟩ := Prod.mk.inj (Option.some.inj h)
    exact .trigger ht
  | sleepAllow allow =>
    obtain ⟨rfl, rfl⟩ := Prod.mk.inj (Option.some.inj h)
    exact pwrctl_of_sleepAllow
  | wakeup =>
    obtain ⟨hs, h⟩ := Option.ite_none_right_eq_some.mp h
    obtain ⟨rfl, rfl⟩ := Prod.mk.inj (Option.some.inj h)
    exact .wakeup hs
  | busDown =>
    obtain ⟨rfl, rfl⟩ := Prod.mk.inj (Option.some.inj h)
    exact .busDown
  | wait =>
    obtain ⟨hw, h⟩ := Option.ite_none_right_eq_some.mp h
    obtain ⟨rfl, rfl⟩ := Prod.mk.inj (Option.some.inj h)
    exact .wait hw.1 hw.2
  | thread ok => exact effect_of_thread h
  | flow reads =>
    obtain ⟨hpc, h⟩ := Option.ite_none_right_eq_some.mp h
    obtain ⟨ret, hret, hs'⟩ := Option.map_eq_some_iff.mp h
    obtain ⟨rfl, rfl⟩ := Prod.mk.inj hs'
    exact .flow reads ret hpc hret

end Effects

end Aic
