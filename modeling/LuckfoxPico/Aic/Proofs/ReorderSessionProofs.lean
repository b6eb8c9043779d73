import LuckfoxPico.Aic.Proofs.ReorderPoolProofs

/-!
# Proofs: one block acknowledgement session

The frames of one station and traffic identifier, numbered with unbounded serials, and the timer of
their control block. The driver does with them what a reordering window does: what it hands on in
turn has ascending serials, whatever the air does to the order, and frames that come less than a
window early are handed on in exactly the order in which they were sent.
-/

namespace Aic

open Machine Window

variable {rx rx' : RxPriv} {mac : List UInt8} {tid : Fin 8} {iftype : Iftype}
  {info : ReordCtrlInfo} {out : List Fate} {s : State Numbered}

/-- The control block of a session as the next frame finds it. -/
def RxPriv.session (rx : RxPriv) (mac : List UInt8) (tid : Fin 8) : ReordCtrl :=
  match rx.sta? mac with
  | none => .fresh
  | some i => (i.preorderCtrl tid).enabled

/-- A frame that reaches the control block of a session. -/
structure Belongs (iftype : Iftype) (mac : List UInt8) (tid : Fin 8) (f : RecvMsdu) : Prop where
  peer : peerMac f.pkt iftype = some mac
  len : 14 < f.pkt.len
  proto : f.pkt.hProto ≠ ethPPae
  unicast : f.pkt.isMcast = false
  tid : f.tid = tid

/-- What happens to a session: a frame with its serial, and the two halves of a timeout. -/
inductive SessionEvent
  | unit (p : Numbered)
  | timer
  | work

/-- The event of the driver. -/
def SessionEvent.rxEvent (iftype : Iftype) (mac : List UInt8) (tid : Fin 8) :
    SessionEvent → RxEvent
  | .unit p => .unit iftype true p.2.pkt p.2.seqNum tid p.2.forward p.2.isAmsdu
  | .timer => .timer mac tid
  | .work => .work mac tid

/-- The event of the window. -/
def SessionEvent.windowEvent? : SessionEvent → Option (Window.Event Numbered)
  | .unit p => some (.arrive p)
  | .timer => none
  | .work => some .expire

/-- Every frame arrives less than half a circle away from the serial that is waited for. -/
def NearRun (s : State Numbered) : List (Window.Event Numbered) → Prop
  | [] => True
  | .arrive p :: es => Near s p.1 ∧ NearRun (arrive Prod.fst 64 s p).1 es
  | .expire :: es => NearRun (expire Prod.fst s).1 es

/-! ## One step of a session -/

theorem enabled_of_enable {c : ReordCtrl} (h : c.enable = true) : c.enabled = c := by
  simp [ReordCtrl.enabled, h]

theorem onCtrl_session (hsta : rx.sta? mac = some info) (r : ReordCtrl × List Fate) :
    (rx.onCtrl mac tid r).1.session mac tid = r.1.enabled := by
  have hfind : (rx.onCtrl mac tid r).1.sta? mac =
      some ⟨mac, Function.update info.preorderCtrl tid r.1⟩ := by
    obtain ⟨-, haddr⟩ := sta?_eq_some hsta
    have hfun : (fun i : ReordCtrlInfo => decide (i.macAddr = mac)) ∘ (fun i =>
        if i.macAddr = mac then ⟨i.macAddr, Function.update i.preorderCtrl tid r.1⟩ else i) =
        fun i => decide (i.macAddr = mac) := by
      funext i
      simp only [Function.comp_apply]
      split <;> rfl
    have hsta : rx.stasReordList.find? (fun i => i.macAddr = mac) = some info := hsta
    simp only [RxPriv.sta?, RxPriv.onCtrl, List.find?_map, hfun, hsta, Option.map_some, haddr,
      if_true]
  simp [RxPriv.session, hfind]

/-- What a session keeps: its control block tracks the window, and the pool has a descriptor for
every frame that may have to be held. -/
structure SessionInv (rx : RxPriv) (mac : List UInt8) (tid : Fin 8) (s : State Numbered) :
    Prop where
  inv : RxInv rx
  tracks : Tracks (rx.session mac tid) s
  enable : (rx.session mac tid).enable = true
  watched : Watched (rx.session mac tid)
  pool : 64 ≤ rx.rxframesFreequeue + (rx.session mac tid).reordList.length

theorem SessionInv.of_onCtrl {r : ReordCtrl × List Fate} (hinv : RxInv (rx.onCtrl mac tid r).1)
    (hsta : rx.sta? mac = some info) (ht : Tracks r.1 s) (hen : r.1.enable = true)
    (hw : Watched r.1) (hpool : 64 ≤ rx.rxframesFreequeue + r.2.length + r.1.reordList.length) :
    SessionInv (rx.onCtrl mac tid r).1 mac tid s := by
  have hsession : (rx.onCtrl mac tid r).1.session mac tid = r.1 := by
    rw [onCtrl_session hsta, enabled_of_enable hen]
  refine ⟨hinv, ?_, ?_, ?_, ?_⟩
  · rwa [hsession]
  · rwa [hsession]
  · rwa [hsession]
  · rwa [hsession]

/-- A frame of a session takes a descriptor and goes to the control block of the session. -/
theorem processUnit_session {f : RecvMsdu} (hbel : Belongs iftype mac tid f)
    (hfree : rx.rxframesFreequeue ≠ 0) :
    ∃ (rx₁ : RxPriv) (info : ReordCtrlInfo),
      rx₁.sta? mac = some info ∧ rx₁.rxframesFreequeue + 1 = rx.rxframesFreequeue ∧
      reordProcessUnit iftype true rx f.pkt f.seqNum tid f.forward f.isAmsdu =
        rx₁.onCtrl mac tid (reordReceive (rx.session mac tid) f) := by
  obtain ⟨hpeer, hlen, hproto, hmcast, rfl⟩ := hbel
  have hlen : ¬ f.pkt.len ≤ 14 := Nat.not_le_of_lt hlen
  simp only [reordProcessUnit, hlen, if_false, hfree, hproto, decide_false, hmcast, Bool.or_false,
    Bool.false_eq_true, hpeer]
  cases hsta : RxPriv.sta? { rx with rxframesFreequeue := rx.rxframesFreequeue - 1 } mac with
  | some info =>
    have hsta' : rx.sta? mac = some info := hsta
    refine ⟨_, info, hsta, by simp only; omega, ?_⟩
    simp only [RxPriv.session, hsta']
  | none =>
    have hsta' : rx.sta? mac = none := hsta
    refine ⟨_, _, sta?_addSta hsta, by simp only; omega, ?_⟩
    simp only [RxPriv.session, hsta']
    rfl

theorem SessionInv.unit {p : Numbered} (h : SessionInv rx mac tid s)
    (hbel : Belongs iftype mac tid p.2) (hseq : (p.2.seqNum : Nat) = p.1 % 4096)
    (hnear : Near s p.1)
    (hstep : rx.step (SessionEvent.rxEvent iftype mac tid (.unit p)) = some (rx', out)) :
    SessionInv rx' mac tid (arrive Prod.fst 64 s p).1 ∧
      out = (arrive Prod.fst 64 s p).2.map fateOf := by
  have hlen : (rx.session mac tid).reordList.length < 64 := by
    rw [h.tracks.list, List.length_map]
    exact h.tracks.inv.length_held_lt (by decide)
  have hpool := h.pool
  have hne : rx.rxframesFreequeue ≠ 0 := by omega
  obtain ⟨rx₁, info, hsta, hfree, hr⟩ := processUnit_session hbel hne
  obtain ⟨ht, hout, hen, hw⟩ := h.tracks.receive h.enable h.watched hseq hnear
  have hinv' := (step_res h.inv hstep).inv
  obtain ⟨rfl, rfl⟩ := Prod.mk.inj (hr.symm.trans (Option.some.inj hstep))
  have hcount := (packets_reordReceive (c := rx.session mac tid) (f := p.2)).length_eq
  simp only [packets, List.length_append, List.length_map, List.length_cons] at hcount
  exact ⟨.of_onCtrl hinv' hsta ht hen hw (by omega), hout⟩

/-- A control block with its timer or work pending is the one of the session. -/
theorem SessionInv.session_eq (h : SessionInv rx mac tid s) (hsta : rx.sta? mac = some info)
    (hp : (info.preorderCtrl tid).reordTimer = true ∨
      (info.preorderCtrl tid).reordTimerWork = true) :
    rx.session mac tid = info.preorderCtrl tid := by
  have hen := (h.inv.ctrls info (sta?_eq_some hsta).1 tid).enable_of_pending hp
  simp [RxPriv.session, hsta, enabled_of_enable hen]

theorem SessionInv.timer (h : SessionInv rx mac tid s)
    (hstep : rx.step (SessionEvent.rxEvent iftype mac tid .timer) = some (rx', out)) :
    SessionInv rx' mac tid s ∧ out = [] := by
  have hinv' := (step_res h.inv hstep).inv
  obtain ⟨info, hsta, hif⟩ := Option.bind_eq_some_iff.mp hstep
  obtain ⟨htimer, hr⟩ := Option.ite_none_right_eq_some.mp hif
  have heq := h.session_eq hsta (Or.inl htimer)
  obtain ⟨rfl, rfl⟩ := Prod.mk.inj (Option.some.inj hr)
  obtain ⟨hwsize, hlist, hmatch, hind, hwin⟩ := heq ▸ h.tracks
  have hpool := heq ▸ h.pool
  exact ⟨.of_onCtrl hinv' hsta ⟨hwsize, hlist, hmatch, hind, hwin⟩ (heq ▸ h.enable)
    (fun _ => Or.inr rfl) hpool, rfl⟩

theorem SessionInv.work (h : SessionInv rx mac tid s)
    (hstep : rx.step (SessionEvent.rxEvent iftype mac tid .work) = some (rx', out)) :
    SessionInv rx' mac tid (expire Prod.fst s).1 ∧ out = (expire Prod.fst s).2.map fateOf := by
  have hinv' := (step_res h.inv hstep).inv
  obtain ⟨info, hsta, hif⟩ := Option.bind_eq_some_iff.mp hstep
  obtain ⟨hwork, hr⟩ := Option.ite_none_right_eq_some.mp hif
  have heq := h.session_eq hsta (Or.inr hwork)
  rw [← heq] at hr
  obtain ⟨rfl, rfl⟩ := Prod.mk.inj (Option.some.inj hr)
  obtain ⟨ht, hout, hen, hw⟩ := h.tracks.timeout
  have hcount := congrArg List.length (packets_reordTimeoutWorker (c := rx.session mac tid))
  simp only [packets, List.length_append, List.length_map] at hcount
  have hpool := h.pool
  exact ⟨.of_onCtrl hinv' hsta ht (hen.trans h.enable) hw (by omega), hout⟩

/-! ## Runs of a session -/

/-- A session that begins with no frame seen. -/
theorem SessionInv.start (hinv : RxInv rx) (hfresh : rx.session mac tid = .fresh)
    (hpool : 64 ≤ rx.rxframesFreequeue) : SessionInv rx mac tid State.start := by
  refine ⟨hinv, ?_, ?_, ?_, by omega⟩
  · rw [hfresh]
    exact tracks_start rfl rfl rfl
  · rw [hfresh]
    rfl
  · rw [hfresh]
    exact fun hne => absurd rfl hne

theorem SessionInv.run {es : List SessionEvent} (h : SessionInv rx mac tid s)
    (hbel : ∀ p, .unit p ∈ es → Belongs iftype mac tid p.2 ∧ (p.2.seqNum : Nat) = p.1 % 4096)
    (hnear : NearRun s (es.filterMap SessionEvent.windowEvent?))
    (hrun : run RxPriv.step rx (es.map (SessionEvent.rxEvent iftype mac tid)) = some (rx', out)) :
    ∃ s' fates,
      Machine.run (step Prod.fst 64) s (es.filterMap SessionEvent.windowEvent?) = some (s', fates) ∧
      out = fates.map fateOf ∧ SessionInv rx' mac tid s' := by
  induction es generalizing rx s out with
  | nil =>
    obtain ⟨rfl, rfl⟩ : rx = rx' ∧ out = [] := by simpa [eq_comm] using hrun
    exact ⟨s, [], rfl, rfl, h⟩
  | cons e es ih =>
    obtain ⟨rx₁, o₁, o₂, hstep, hrest, rfl⟩ := run_cons_eq_some_iff.mp hrun
    have hbel' := fun p hp => hbel p (List.mem_cons_of_mem e hp)
    cases e with
    | unit p =>
      obtain ⟨hb, hseq⟩ := hbel p (by simp)
      obtain ⟨hnear₁, hnear₂⟩ := hnear
      obtain ⟨h₁, rfl⟩ := h.unit hb hseq hnear₁ hstep
      obtain ⟨s', fates, hwin, rfl, h'⟩ := ih h₁ hbel' hnear₂ hrest
      exact ⟨s', (arrive Prod.fst 64 s p).2 ++ fates,
        run_cons_eq_some_iff.mpr ⟨_, _, fates, rfl, hwin, rfl⟩,
        by rw [List.map_append], h'⟩
    | timer =>
      obtain ⟨h₁, rfl⟩ := h.timer hstep
      exact ih h₁ hbel' hnear hrest
    | work =>
      obtain ⟨h₁, rfl⟩ := h.work hstep
      obtain ⟨s', fates, hwin, rfl, h'⟩ := ih h₁ hbel' hnear hrest
      exact ⟨s', (expire Prod.fst s).2 ++ fates,
        run_cons_eq_some_iff.mpr ⟨_, _, fates, rfl, hwin, rfl⟩,
        by rw [List.map_append], h'⟩

/-- No frame is more than 1984 serials ahead of the newest one before it, or 2047 behind. -/
def Steady : Option Nat → List (Window.Event Numbered) → Prop
  | _, [] => True
  | big?, .expire :: es => Steady big? es
  | none, .arrive p :: es => Steady (some p.1) es
  | some big, .arrive p :: es =>
    big < p.1 + 2048 ∧ p.1 < big + 1985 ∧ Steady (some (max big p.1)) es

theorem Steady.nearRun {es : List (Window.Event Numbered)} {big : Nat}
    (hinv : Window.Inv Prod.fst 64 s) (hbig : Newest Prod.fst 64 s big)
    (h : Steady (some big) es) : NearRun s es := by
  induction es generalizing s big with
  | nil => trivial
  | cons e es ih =>
    cases e with
    | expire => exact ih hinv.expire (hbig.expire hinv) h
    | arrive p =>
      obtain ⟨hlo, hhi, hrest⟩ := h
      refine ⟨fun n hn => ?_, ih hinv.arrive (hbig.arrive hinv) hrest⟩
      obtain ⟨n', hn', hlt, hle⟩ := hbig.next
      obtain rfl : n' = n := Option.some.inj (hn'.symm.trans hn)
      omega

theorem Steady.nearRun_start {es : List (Window.Event Numbered)} (h : Steady none es) :
    NearRun State.start es := by
  induction es with
  | nil => trivial
  | cons e es ih =>
    cases e with
    | expire => exact ih h
    | arrive p => exact ⟨by simp [Near, State.start], h.nearRun inv_start.arrive .first⟩

/-- Whatever the air does to the order of the frames of a session, and whenever its timer expires,
the driver does what a window of 64 does with the serials of the frames: it hands on in turn with
ascending serials; what it hands on or frees out of turn came too late or twice. -/
theorem session_inOrder {es : List SessionEvent} (hinv : RxInv rx)
    (hfresh : rx.session mac tid = .fresh) (hpool : 64 ≤ rx.rxframesFreequeue)
    (hbel : ∀ p, .unit p ∈ es → Belongs iftype mac tid p.2 ∧ (p.2.seqNum : Nat) = p.1 % 4096)
    (hsteady : Steady none (es.filterMap SessionEvent.windowEvent?))
    (hrun : run RxPriv.step rx (es.map (SessionEvent.rxEvent iftype mac tid)) = some (rx', out)) :
    ∃ s fates,
      run (step Prod.fst 64) State.start (es.filterMap SessionEvent.windowEvent?) =
        some (s, fates) ∧
      out = fates.map fateOf ∧ (rx'.session mac tid).reordList = s.held.map Prod.snd ∧
      (passedOf fates).Pairwise (fun p q => p.1 < q.1) := by
  obtain ⟨s, fates, hwin, rfl, h⟩ :=
    (SessionInv.start hinv hfresh hpool).run hbel hsteady.nearRun_start hrun
  exact ⟨s, fates, hwin, rfl, h.tracks.list, (run_inOrder hwin).2.ascending⟩

theorem mod_lt_circle (k : Nat) : k % 4096 < 4096 := Nat.mod_lt k (by decide)

/-- A frame with a serial, for the station `02:00:00:00:00:01`. -/
def sampleFrame (k : Nat) : Numbered :=
  (k, ⟨samplePkt, sampleTid, ⟨k % 4096, mod_lt_circle k⟩, true, false⟩)

theorem sampleFrame_belongs (k : Nat) :
    Belongs .station [2, 0, 0, 0, 0, 1] 0 (sampleFrame k).2 ∧
      ((sampleFrame k).2.seqNum : Nat) = (sampleFrame k).1 % 4096 :=
  ⟨⟨rfl, (by decide : 14 < samplePkt.len), (by decide : samplePkt.hProto ≠ ethPPae),
    (by decide : samplePkt.isMcast = false), rfl⟩, rfl⟩

/-- The timer expires while 4096 is missing; it is late when it comes. -/
theorem session_inOrder_late : ∃ rx' out s fates,
    run RxPriv.step .init ([.unit (sampleFrame 4095), .unit (sampleFrame 4097), .timer, .work,
      .unit (sampleFrame 4096)].map (SessionEvent.rxEvent .station [2, 0, 0, 0, 0, 1] 0)) =
        some (rx', out) ∧
      run (step Prod.fst 64) State.start [.arrive (sampleFrame 4095), .arrive (sampleFrame 4097),
        .expire, .arrive (sampleFrame 4096)] = some (s, fates) ∧
      out = fates.map fateOf ∧ (passedOf fates).Pairwise (fun p q => p.1 < q.1) := by
  have hbel : ∀ p, SessionEvent.unit p ∈ [.unit (sampleFrame 4095), .unit (sampleFrame 4097),
      .timer, .work, .unit (sampleFrame 4096)] →
      Belongs .station [2, 0, 0, 0, 0, 1] 0 p.2 ∧ (p.2.seqNum : Nat) = p.1 % 4096 := by
    intro p hp
    have hp : p = sampleFrame 4095 ∨ p = sampleFrame 4097 ∨ p = sampleFrame 4096 := by
      simpa using hp
    rcases hp with rfl | rfl | rfl <;> exact sampleFrame_belongs _
  obtain ⟨s, fates, hwin, hout, -, hasc⟩ := session_inOrder rxInv_init
    (show RxPriv.init.session [2, 0, 0, 0, 0, 1] 0 = .fresh from rfl) (by decide) hbel
    ⟨by decide, by decide, by decide, by decide, trivial⟩ rfl
  exact ⟨_, _, s, fates, rfl, hwin, hout, hasc⟩

/-! ## Frames that come less than a window early -/

theorem nearRun_of_lossless {held rest : List Numbered} {n c : Nat}
    (h : Lossless Prod.fst 64 c n held rest) :
    NearRun ⟨some n, held⟩ (rest.map .arrive) := by
  induction rest generalizing n held with
  | nil => trivial
  | cons p rest ih =>
    obtain ⟨n', passed, held', harr, hnext, -⟩ := h.arrive
    refine ⟨fun k hk => ?_, by rw [harr]; exact ih hnext⟩
    obtain rfl : n = k := Option.some.inj hk
    have hle := h.notBehind p (by simp)
    by_cases heq : p.1 = n
    · omega
    · have := h.near heq
      omega

/-- The frames of a session, the one with the first serial in front, each serial once, none a window
or more before a missing one, all to be forwarded: they are submitted in the order of their serials,
and none is held or freed. -/
theorem session_lossless {arr : List Numbered} {a : Nat} (hinv : RxInv rx)
    (hfresh : rx.session mac tid = .fresh) (hpool : 64 ≤ rx.rxframesFreequeue)
    (hbel : ∀ p ∈ arr, Belongs iftype mac tid p.2 ∧ (p.2.seqNum : Nat) = p.1 % 4096)
    (hforward : ∀ p ∈ arr, p.2.forward = true)
    (hfirst : ∀ p ∈ arr.head?, p.1 = a)
    (hser : (arr.map Prod.fst).Perm (List.range' a arr.length))
    (hearly : arr.Pairwise fun p q => p.1 < q.1 + 64) :
    ∃ (rx' : RxPriv) (sent : List Numbered), sent.Perm arr ∧
      sent.map Prod.fst = List.range' a arr.length ∧
      run RxPriv.step rx (arr.map fun p => SessionEvent.rxEvent iftype mac tid (.unit p)) =
        some (rx', sent.map fun p => .netif p.2) ∧
      (rx'.session mac tid).reordList = [] := by
  have hevents : (arr.map SessionEvent.unit).filterMap SessionEvent.windowEvent? =
      arr.map .arrive := by
    rw [List.filterMap_map]
    exact congrFun (List.filterMap_eq_map (f := Window.Event.arrive)) arr
  have hnear : NearRun State.start (arr.map .arrive) := by
    cases arr with
    | nil => trivial
    | cons p rest =>
      have h := nearRun_of_lossless (Lossless.start hser hearly)
      refine ⟨by simp [Near, State.start], ?_⟩
      rw [arrive_start, hfirst p (by simp)]
      exact h.2
  have hpossible : ∀ e ∈ (arr.map SessionEvent.unit).map (SessionEvent.rxEvent iftype mac tid),
      ∀ s : RxPriv, (s.step e).isSome := by
    intro e he s
    obtain ⟨x, hx, rfl⟩ := List.mem_map.mp he
    obtain ⟨p, -, rfl⟩ := List.mem_map.mp hx
    rfl
  obtain ⟨rx', out, hrun⟩ := exists_run hpossible rx
  obtain ⟨s, fates, hwin, rfl, h⟩ := (SessionInv.start hinv hfresh hpool).run
    (fun p hp => hbel p (by simpa using hp)) (by rw [hevents]; exact hnear) hrun
  rw [List.map_map] at hrun
  obtain ⟨s', sent, hwin', hheld, hperm, hserials⟩ := run_lossless hfirst hser hearly
  rw [hevents, hwin'] at hwin
  obtain ⟨rfl, rfl⟩ := Prod.mk.inj (Option.some.inj hwin)
  refine ⟨rx', sent, hperm, hserials, ?_, by rw [h.tracks.list, hheld]; rfl⟩
  have hfates : (sent.map Window.Fate.passed).map fateOf = sent.map fun p => .netif p.2 := by
    rw [List.map_map]
    refine List.map_congr_left fun p hp => ?_
    show reordSingleFrameInd p.2 = .netif p.2
    rw [reordSingleFrameInd, if_pos (hforward p (hperm.mem_iff.mp hp))]
  rw [← hfates]
  exact hrun

/-- Three frames around the end of the circle, the last two of them swapped. -/
theorem session_lossless_swapped : ∃ (rx' : RxPriv) (sent : List Numbered),
    sent.Perm [sampleFrame 4095, sampleFrame 4097, sampleFrame 4096] ∧
      sent.map Prod.fst = [4095, 4096, 4097] ∧
      run RxPriv.step .init ([sampleFrame 4095, sampleFrame 4097, sampleFrame 4096].map fun p =>
        SessionEvent.rxEvent .station [2, 0, 0, 0, 0, 1] 0 (.unit p)) =
          some (rx', sent.map fun p => .netif p.2) ∧
      (rx'.session [2, 0, 0, 0, 0, 1] 0).reordList = [] :=
  session_lossless (a := 4095) rxInv_init rfl (by decide)
    (fun p hp => by
      have hp : p = sampleFrame 4095 ∨ p = sampleFrame 4097 ∨ p = sampleFrame 4096 := by
        simpa using hp
      rcases hp with rfl | rfl | rfl <;> exact sampleFrame_belongs _)
    (fun p hp => by
      have hp : p = sampleFrame 4095 ∨ p = sampleFrame 4097 ∨ p = sampleFrame 4096 := by
        simpa using hp
      rcases hp with rfl | rfl | rfl <;> rfl)
    (by simp [sampleFrame]) (by decide) (by simp [sampleFrame])

end Aic
