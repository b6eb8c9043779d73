import Mathlib.Data.List.FinRange
import LuckfoxPico.Aic.Proofs.ReorderProofs

/-!
# Proofs: all stations and the pool of descriptors

Every packet that comes in is submitted, freed or held, exactly once. Every descriptor is in the
pool or with a held frame, unless a control block could not be made for a new station. In every
state that is reached, a control block holds less than a window of frames, in order and ahead of the
number it waits for; whatever it holds is watched over by the timer; a disabled one has nothing
pending.
-/

namespace Aic

open Machine Window

variable {c : ReordCtrl} {f : RecvMsdu} {rx rx' : RxPriv} {mac : List UInt8} {tid : Fin 8}
  {info : ReordCtrlInfo} {out : List Fate}

/-! ## The packets of one control block -/

@[simp] theorem skb_reordSingleFrameInd : (reordSingleFrameInd f).skb = f.pkt := by
  rw [reordSingleFrameInd]
  split <;> rfl

theorem map_skb_reordSingleFrameInd (l : List RecvMsdu) :
    (l.map reordSingleFrameInd).map Fate.skb = l.map RecvMsdu.pkt := by
  simp

theorem reordRxframeEnqueue_perm {l l' : List RecvMsdu} (h : reordRxframeEnqueue f l = some l') :
    l'.Perm (f :: l) := by
  induction l generalizing l' with
  | nil =>
    obtain rfl : [f] = l' := by simpa [reordRxframeEnqueue] using h
    exact List.Perm.refl _
  | cons p ps ih =>
    rw [reordRxframeEnqueue] at h
    split at h
    next =>
      obtain ⟨qs, hqs, rfl⟩ := Option.map_eq_some_iff.mp h
      exact ((ih hqs).cons p).trans (List.Perm.swap f p ps)
    next =>
      split at h
      next => exact absurd h (by simp)
      next =>
        obtain rfl : f :: p :: ps = l' := Option.some.inj h
        exact List.Perm.refl _

/-- The packets that a step puts out and those that the control block holds afterwards. -/
def packets (r : ReordCtrl × List Fate) : List SkBuff :=
  r.2.map Fate.skb ++ r.1.reordList.map RecvMsdu.pkt

theorem packets_reordRxframesInd : packets (reordRxframesInd c) = c.reordList.map RecvMsdu.pkt := by
  simp only [packets, reordRxframesInd, map_skb_reordSingleFrameInd, ← List.map_append,
    List.takeWhile_append_dropWhile]

theorem process_reordList {forced : Bool} :
    (reordRxframesProcess c forced).1.reordList = c.reordList := by
  rw [reordRxframesProcess]
  split
  next => rfl
  next => cases forced <;> rfl

/-- `reord_need_check` changes nothing but `ind_sn`. -/
theorem needCheck_eq_set {k : Nat} :
    ∃ late i, reordNeedCheck c k = (late, { c with indSn := i }) := by
  obtain ⟨j, hj⟩ : ∃ j, (if c.indSn = 0xFFFF then { c with indSn := k } else c) =
      { c with indSn := j } := by
    split
    · exact ⟨_, rfl⟩
    · exact ⟨c.indSn, rfl⟩
  simp only [reordNeedCheck, hj]
  split
  · exact ⟨_, _, rfl⟩
  · split
    · exact ⟨_, _, rfl⟩
    · split
      · split <;> exact ⟨_, _, rfl⟩
      · exact ⟨_, _, rfl⟩

/-- A frame that comes in is put out or held. -/
theorem packets_reordReceive :
    (packets (reordReceive c f)).Perm (f.pkt :: c.reordList.map RecvMsdu.pkt) := by
  rw [reordReceive]
  split
  next => simp [packets]
  next =>
    obtain ⟨late, i, hcheck⟩ := needCheck_eq_set (c := c) (k := f.seqNum)
    rw [hcheck]
    cases late with
    | true =>
      simp only
      split
      · split
        · simp [packets]
        · simp [packets, Fate.skb]
      · simp [packets]
    | false =>
      simp only
      cases hq : reordRxframeEnqueue f c.reordList with
      | none => simp [packets, Fate.skb]
      | some l =>
        simp only [packets_reordRxframesInd, process_reordList]
        rw [← List.map_cons]
        exact (reordRxframeEnqueue_perm hq).map _

theorem packets_reordTimeoutWorker :
    packets (reordTimeoutWorker c) = c.reordList.map RecvMsdu.pkt := by
  simp only [reordTimeoutWorker, packets_reordRxframesInd]
  rw [apply_ite ReordCtrl.reordList]
  simp [process_reordList]

theorem packets_flush : packets c.flush = c.reordList.map RecvMsdu.pkt := by
  simp [packets, ReordCtrl.flush, Function.comp_def]

/-! ## The packets of all stations -/

theorem sta?_eq_some (h : rx.sta? mac = some info) :
    info ∈ rx.stasReordList ∧ info.macAddr = mac :=
  ⟨List.mem_of_find?_eq_some h, by simpa using List.find?_some h⟩

theorem sta?_eq_none (h : rx.sta? mac = none) : ∀ i ∈ rx.stasReordList, i.macAddr ≠ mac := by
  simpa using List.find?_eq_none.mp h

/-- Lists collected along a list without repeated keys, when only what one element contributes
changes. -/
theorem flatMap_change {α β κ : Type} {key : α → κ} {l : List α} (hl : (l.map key).Nodup) {a : α}
    (ha : a ∈ l) {g h : α → List β} (hgh : ∀ b ∈ l, key b ≠ key a → g b = h b) :
    ∃ rest, (l.flatMap g).Perm (g a ++ rest) ∧ (l.flatMap h).Perm (h a ++ rest) := by
  induction l with
  | nil => simp at ha
  | cons x xs ih =>
    obtain ⟨hx, hxs⟩ := List.nodup_cons.mp hl
    rw [List.flatMap_cons, List.flatMap_cons]
    by_cases hax : a = x
    · subst hax
      refine ⟨xs.flatMap g, List.Perm.refl _, List.Perm.of_eq (congrArg (h a ++ ·) ?_)⟩
      refine (List.flatMap_congr fun b hb => hgh b (by simp [hb]) fun heq => hx ?_).symm
      exact heq ▸ List.mem_map_of_mem hb
    · have hmem : a ∈ xs := (List.mem_cons.mp ha).resolve_left hax
      obtain ⟨rest, hg, hh⟩ := ih hxs hmem fun b hb => hgh b (by simp [hb])
      have hgx : g x = h x := hgh x (by simp) fun heq => hx (heq ▸ List.mem_map_of_mem hmem)
      refine ⟨h x ++ rest, ?_, ?_⟩
      · rw [hgx]
        refine (hg.append_left (h x)).trans ?_
        rw [← List.append_assoc, ← List.append_assoc]
        exact List.perm_append_comm.append_right rest
      · refine (hh.append_left (h x)).trans ?_
        rw [← List.append_assoc, ← List.append_assoc]
        exact List.perm_append_comm.append_right rest

/-- The packets that are held for all stations. -/
def RxPriv.held (rx : RxPriv) : List SkBuff :=
  rx.stasReordList.flatMap fun i => i.pending.map RecvMsdu.pkt

/-- The frames that a station holds, with one control block changed. -/
theorem pending_update (info : ReordCtrlInfo) (tid : Fin 8) (r : ReordCtrl) :
    ∃ rest, info.pending.Perm ((info.preorderCtrl tid).reordList ++ rest) ∧
      (ReordCtrlInfo.mk info.macAddr (Function.update info.preorderCtrl tid r)).pending.Perm
        (r.reordList ++ rest) := by
  have hnodup : ((List.finRange 8).map (id : Fin 8 → Fin 8)).Nodup := by
    simpa using List.nodup_finRange 8
  obtain ⟨rest, hold, hnew⟩ := flatMap_change hnodup (List.mem_finRange tid)
    (g := fun t => (info.preorderCtrl t).reordList)
    (h := fun t => (Function.update info.preorderCtrl tid r t).reordList)
    fun t _ hne => by rw [Function.update_of_ne (show t ≠ tid from hne)]
  refine ⟨rest, hold, ?_⟩
  rwa [Function.update_self] at hnew

/-- A step of one control block changes what is held only there. -/
theorem onCtrl_held (haddr : (rx.stasReordList.map ReordCtrlInfo.macAddr).Nodup)
    (hsta : rx.sta? mac = some info) (tid : Fin 8) (r : ReordCtrl × List Fate) :
    ∃ rest, rx.held.Perm ((info.preorderCtrl tid).reordList.map RecvMsdu.pkt ++ rest) ∧
      (rx.onCtrl mac tid r).1.held.Perm (r.1.reordList.map RecvMsdu.pkt ++ rest) := by
  obtain ⟨hmem, rfl⟩ := sta?_eq_some hsta
  obtain ⟨rest, hold, hnew⟩ := flatMap_change haddr hmem
    (g := fun i => i.pending.map RecvMsdu.pkt)
    (h := fun i => (if i.macAddr = info.macAddr then
      ⟨i.macAddr, Function.update i.preorderCtrl tid r.1⟩ else i).pending.map RecvMsdu.pkt)
    fun i _ hne => by simp only [if_neg hne]
  obtain ⟨rest', hold', hnew'⟩ := pending_update info tid r.1
  refine ⟨rest'.map RecvMsdu.pkt ++ rest, hold.trans ?_, ?_⟩
  · rw [← List.append_assoc, ← List.map_append]
    exact (hold'.map _).append_right rest
  · have hheld : (rx.onCtrl info.macAddr tid r).1.held = rx.stasReordList.flatMap fun i =>
        (if i.macAddr = info.macAddr then
          ⟨i.macAddr, Function.update i.preorderCtrl tid r.1⟩ else i).pending.map RecvMsdu.pkt := by
      simp only [RxPriv.held, RxPriv.onCtrl, List.flatMap_map]
    rw [hheld]
    refine hnew.trans ?_
    rw [if_pos rfl, ← List.append_assoc, ← List.map_append]
    exact (hnew'.map _).append_right rest

/-- A step of one control block that puts out or holds the packets `skbs` and what it held. -/
theorem onCtrl_packets (haddr : (rx.stasReordList.map ReordCtrlInfo.macAddr).Nodup)
    (hsta : rx.sta? mac = some info) {r : ReordCtrl × List Fate} {skbs : List SkBuff}
    (hr : (packets r).Perm (skbs ++ (info.preorderCtrl tid).reordList.map RecvMsdu.pkt)) :
    ((rx.onCtrl mac tid r).2.map Fate.skb ++ (rx.onCtrl mac tid r).1.held).Perm
      (skbs ++ rx.held) := by
  obtain ⟨rest, hold, hnew⟩ := onCtrl_held haddr hsta tid r
  refine (hnew.append_left _).trans ?_
  rw [← List.append_assoc]
  refine (hr.append_right rest).trans ?_
  rw [List.append_assoc]
  exact (hold.append_left skbs).symm

/-- Its descriptors go back to the pool with what is put out. -/
theorem onCtrl_pool (haddr : (rx.stasReordList.map ReordCtrlInfo.macAddr).Nodup)
    (hsta : rx.sta? mac = some info) {r : ReordCtrl × List Fate} {skbs : List SkBuff}
    (hr : (packets r).Perm (skbs ++ (info.preorderCtrl tid).reordList.map RecvMsdu.pkt)) :
    (rx.onCtrl mac tid r).1.rxframesFreequeue + (rx.onCtrl mac tid r).1.held.length =
      rx.rxframesFreequeue + rx.held.length + skbs.length := by
  have hlen := (onCtrl_packets haddr hsta hr).length_eq
  simp only [List.length_append, List.length_map] at hlen
  have hfree : (rx.onCtrl mac tid r).1.rxframesFreequeue =
    rx.rxframesFreequeue + (rx.onCtrl mac tid r).2.length := rfl
  omega

/-! ## What every control block keeps -/

/-- The invariant of a control block: if it is enabled it tracks a window, if not it has nothing
pending. -/
structure CtrlInv (c : ReordCtrl) : Prop where
  tracks : c.enable = true → ∃ s, Tracks c s ∧ ∀ n, s.next = some n → 4096 ≤ n
  idle : c.enable = false →
    c.reordList = [] ∧ c.reordTimer = false ∧ c.reordTimerWork = false
  watched : Watched c

theorem tracks_start (hwsize : c.wsizeB = reorderWinsize) (hlist : c.reordList = [])
    (hind : c.indSn = 0xFFFF) : Tracks c State.start :=
  ⟨hwsize, by simp [hlist, State.start], by simp [Matching, State.start],
    by simp [hind, State.start], inv_start⟩

theorem CtrlInv.fresh : CtrlInv .fresh :=
  ⟨fun _ => ⟨State.start, tracks_start rfl rfl rfl, by simp [State.start]⟩,
    by simp [ReordCtrl.fresh], fun h => absurd rfl h⟩

theorem CtrlInv.enabled (h : CtrlInv c) : CtrlInv c.enabled ∧ c.enabled.enable = true ∧
    c.enabled.reordList = c.reordList := by
  by_cases hen : c.enable = false
  · have hc : c.enabled = { c with enable := true, indSn := 0xFFFF, wsizeB := reorderWinsize } := by
      simp [ReordCtrl.enabled, hen]
    obtain ⟨hlist, htimer, hwork⟩ := h.idle hen
    rw [hc]
    refine ⟨⟨fun _ => ⟨State.start, tracks_start rfl hlist rfl, by simp [State.start]⟩,
      by simp, fun hne => absurd hlist hne⟩, rfl, rfl⟩
  · have hc : c.enabled = c := by simp [ReordCtrl.enabled, hen]
    rw [hc]
    exact ⟨h, by simpa using hen, rfl⟩

/-- For every sequence number there is a serial less than half a circle away. -/
theorem exists_near (s : State Numbered) (hs : ∀ n, s.next = some n → 4096 ≤ n) (q : Fin 4096) :
    ∃ k, (q : Nat) = k % 4096 ∧ Near s k ∧ 4096 ≤ s.next.getD k := by
  cases hn : s.next with
  | none => exact ⟨q + 4096, by omega, fun n hn' => by simp [hn] at hn', by simp⟩
  | some n =>
    have hn4 := hs n hn
    refine ⟨n - 2048 + (q + 4096 - (n - 2048) % 4096) % 4096, by omega, fun n' hn' => ?_, by simpa⟩
    obtain rfl : n = n' := by simpa [hn] using hn'
    omega

theorem CtrlInv.receive (h : CtrlInv c) (hen : c.enable = true) : CtrlInv (reordReceive c f).1 := by
  obtain ⟨s, ht, hs⟩ := h.tracks hen
  obtain ⟨k, hf, hk, hk4⟩ := exists_near s hs f.seqNum
  obtain ⟨ht', -, hen', hw'⟩ := ht.receive hen h.watched hf hk
  refine ⟨fun _ => ⟨_, ht', fun n hn => ?_⟩, fun hdis => absurd hdis (by simp [hen']), hw'⟩
  obtain ⟨n', hn', hle⟩ := next_arrive Prod.fst 64 s (k, f)
  obtain rfl : n' = n := Option.some.inj (hn'.symm.trans hn)
  exact le_trans hk4 hle

theorem CtrlInv.timeout (h : CtrlInv c) (hen : c.enable = true) :
    CtrlInv (reordTimeoutWorker c).1 := by
  obtain ⟨s, ht, hs⟩ := h.tracks hen
  obtain ⟨ht', -, hen', hw'⟩ := ht.timeout
  refine ⟨fun _ => ⟨_, ht', fun n hn => ?_⟩, fun hdis => absurd hdis (by simp [hen', hen]), hw'⟩
  cases hnext : s.next with
  | none =>
    have hnil : s.held = [] := by
      refine List.eq_nil_iff_forall_not_mem.mpr fun p hp => ?_
      obtain ⟨n, hn, -⟩ := ht.inv.inside p hp
      simp [hnext] at hn
    simp [expire, hnil, hnext] at hn
  | some n₀ =>
    obtain ⟨n', hn', hle⟩ := ht.inv.next_expire hnext
    obtain rfl : n' = n := Option.some.inj (hn'.symm.trans hn)
    exact le_trans (hs n₀ hnext) hle

theorem CtrlInv.handler (h : CtrlInv c) (hen : c.enable = true) :
    CtrlInv (reordTimeoutHandler c) := by
  obtain ⟨s, ht, hs⟩ := h.tracks hen
  exact ⟨fun _ => ⟨s, ⟨ht.wsize, ht.list, ht.matching, ht.ind, ht.inv⟩, hs⟩,
    fun hdis => absurd (show c.enable = false from hdis) (by simp [hen]), fun _ => Or.inr rfl⟩

/-- A disabled control block has neither timer nor work pending. -/
theorem CtrlInv.enable_of_pending (h : CtrlInv c)
    (hp : c.reordTimer = true ∨ c.reordTimerWork = true) : c.enable = true := by
  by_contra hen
  obtain ⟨-, htimer, hwork⟩ := h.idle (by simpa using hen)
  rw [htimer, hwork] at hp
  simp at hp

theorem CtrlInv.flush : CtrlInv c.flush.1 :=
  ⟨by simp [ReordCtrl.flush], fun _ => ⟨rfl, rfl, rfl⟩, fun hne => absurd rfl hne⟩

/-- The invariant of all stations. -/
structure RxInv (rx : RxPriv) : Prop where
  addrs : (rx.stasReordList.map ReordCtrlInfo.macAddr).Nodup
  ctrls : ∀ i ∈ rx.stasReordList, ∀ tid, CtrlInv (i.preorderCtrl tid)

theorem RxInv.onCtrl (h : RxInv rx) {r : ReordCtrl × List Fate} (hr : CtrlInv r.1) :
    RxInv (rx.onCtrl mac tid r).1 := by
  constructor
  · have haddr : ((rx.onCtrl mac tid r).1.stasReordList.map ReordCtrlInfo.macAddr) =
        rx.stasReordList.map ReordCtrlInfo.macAddr := by
      simp only [RxPriv.onCtrl, List.map_map]
      refine List.map_congr_left fun i _ => ?_
      simp only [Function.comp_apply]
      split <;> rfl
    rw [haddr]
    exact h.addrs
  · intro i hi t
    obtain ⟨j, hj, rfl⟩ := List.mem_map.mp hi
    split
    next =>
      show CtrlInv (Function.update j.preorderCtrl tid r.1 t)
      by_cases ht : t = tid
      · rw [ht, Function.update_self]
        exact hr
      · rw [Function.update_of_ne ht]
        exact h.ctrls j hj t
    next => exact h.ctrls j hj t

/-! ## Steps -/

/-- The packets that a call takes over. -/
def RxEvent.skbs : RxEvent → List SkBuff
  | .unit _ _ skb _ _ _ _ => [skb]
  | .flush .other skb _ => [skb]
  | _ => []

/-- A frame for an interface that has stations, with a control block if it needs a new one. -/
def RxEvent.regular : RxEvent → Bool
  | .unit iftype initOk _ _ _ _ _ => iftype ≠ .other && initOk
  | _ => true

/-- The descriptors in the pool and with held frames. -/
def RxPriv.descriptors (rx : RxPriv) : Nat := rx.rxframesFreequeue + rx.held.length

/-- What a step with the packets `skbs` does. -/
structure StepRes (rx : RxPriv) (skbs : List SkBuff) (regular : Bool) (r : RxPriv × List Fate) :
    Prop where
  inv : RxInv r.1
  packets : (r.2.map Fate.skb ++ r.1.held).Perm (skbs ++ rx.held)
  pool : r.1.descriptors ≤ rx.descriptors
  kept : regular = true → r.1.descriptors = rx.descriptors

theorem peerMac_eq_none {skb : SkBuff} {iftype : Iftype} (h : peerMac skb iftype = none) :
    iftype = .other := by
  cases iftype <;> simp_all [peerMac]

/-- A frame for a station that is there. -/
theorem unit_res {rx : RxPriv} (h : RxInv rx) (hsta : rx.sta? mac = some info) {rx₀ : RxPriv}
    (hheld : rx.held = rx₀.held) (hfree : rx.rxframesFreequeue + 1 = rx₀.rxframesFreequeue)
    {b : Bool} : StepRes rx₀ [f.pkt] b
      (rx.onCtrl mac tid (reordReceive (info.preorderCtrl tid).enabled f)) := by
  obtain ⟨hmem, -⟩ := sta?_eq_some hsta
  obtain ⟨hinv, hen, hlist⟩ := (h.ctrls info hmem tid).enabled
  have hr : (packets (reordReceive (info.preorderCtrl tid).enabled f)).Perm
      ([f.pkt] ++ (info.preorderCtrl tid).reordList.map RecvMsdu.pkt) := by
    rw [← hlist]
    exact packets_reordReceive
  have hpool := onCtrl_pool h.addrs hsta hr
  have hpackets := onCtrl_packets h.addrs hsta hr
  have heq : (rx.onCtrl mac tid (reordReceive (info.preorderCtrl tid).enabled f)).1.descriptors =
      rx₀.descriptors := by
    simp only [RxPriv.descriptors, ← hheld, List.length_singleton] at hpool ⊢
    omega
  exact ⟨h.onCtrl (hinv.receive hen), hheld ▸ hpackets, le_of_eq heq, fun _ => heq⟩

/-- A new station with the control blocks of `reord_init_sta`. -/
theorem RxInv.addSta (h : RxInv rx) (hnone : rx.sta? mac = none) :
    RxInv { rx with stasReordList := rx.stasReordList ++ [⟨mac, fun _ => .fresh⟩] } := by
  constructor
  · rw [List.map_append, List.nodup_append]
    refine ⟨h.addrs, List.nodup_singleton _, fun a ha b hb => ?_⟩
    obtain ⟨i, hi, rfl⟩ := List.mem_map.mp ha
    obtain rfl : b = mac := by simpa using hb
    exact sta?_eq_none hnone i hi
  · intro i hi t
    rcases List.mem_append.mp hi with hi | hi
    · exact h.ctrls i hi t
    · obtain rfl : i = ⟨mac, fun _ => .fresh⟩ := by simpa using hi
      exact CtrlInv.fresh

theorem pending_fresh : (ReordCtrlInfo.mk mac fun _ => .fresh).pending = [] := by
  simp [ReordCtrlInfo.pending, ReordCtrl.fresh]

theorem sta?_addSta (hnone : rx.sta? mac = none) :
    RxPriv.sta? { rx with stasReordList := rx.stasReordList ++ [⟨mac, fun _ => .fresh⟩] } mac =
      some ⟨mac, fun _ => .fresh⟩ := by
  have hnone : rx.stasReordList.find? (fun i => i.macAddr = mac) = none := hnone
  simp [RxPriv.sta?, List.find?_append, hnone]

theorem held_addSta {n : Nat} :
    RxPriv.held ⟨n, rx.stasReordList ++ [⟨mac, fun _ => .fresh⟩]⟩ = rx.held := by
  simp [RxPriv.held, pending_fresh]

/-- `reord_process_unit` -/
theorem processUnit_res (h : RxInv rx) (iftype : Iftype) (initOk : Bool) (skb : SkBuff)
    (seqNum : Fin 4096) (tid : Fin 8) (forward isAmsdu : Bool) :
    StepRes rx [skb] (iftype ≠ .other && initOk)
      (reordProcessUnit iftype initOk rx skb seqNum tid forward isAmsdu) := by
  -- a descriptor that is taken out of the pool and not used is lost
  have hlost : rx.rxframesFreequeue ≠ 0 → StepRes rx [skb] false
      ({ rx with rxframesFreequeue := rx.rxframesFreequeue - 1 }, [.freed skb]) := fun hfree =>
    ⟨⟨h.addrs, h.ctrls⟩, List.Perm.refl _, by
      simp only [RxPriv.descriptors, RxPriv.held]; omega, by simp⟩
  have hself : ∀ fate : Fate, fate.skb = skb → ∀ b, StepRes rx [skb] b (rx, [fate]) :=
    fun fate hfate b => ⟨h, by simp [hfate], le_rfl, fun _ => rfl⟩
  simp only [reordProcessUnit]
  split
  next => exact hself _ rfl _
  next =>
    split
    next => exact hself _ rfl _
    next hfree =>
      split
      next => exact hself _ skb_reordSingleFrameInd _
      next =>
        cases hmac : peerMac skb iftype with
        | none =>
          have := peerMac_eq_none hmac
          simpa [this] using hlost hfree
        | some mac =>
          simp only
          cases hsta : RxPriv.sta? { rx with rxframesFreequeue := rx.rxframesFreequeue - 1 } mac with
          | some info =>
            have hinv : RxInv { rx with rxframesFreequeue := rx.rxframesFreequeue - 1 } :=
              ⟨h.addrs, h.ctrls⟩
            have hheld : RxPriv.held { rx with rxframesFreequeue := rx.rxframesFreequeue - 1 } =
              rx.held := rfl
            exact unit_res (f := ⟨skb, tid, seqNum, forward, isAmsdu⟩) hinv hsta hheld
              (by simp only; omega)
          | none =>
            cases hinit : reordInitSta initOk mac with
            | none =>
              have hok : initOk = false := by
                cases initOk with
                | false => rfl
                | true => simp [reordInitSta] at hinit
              simpa [hok] using hlost hfree
            | some info =>
              obtain rfl : (⟨mac, fun _ => .fresh⟩ : ReordCtrlInfo) = info := by
                simpa [reordInitSta] using (Option.ite_some_none_eq_some.mp hinit).2
              have hinv : RxInv { rx with rxframesFreequeue := rx.rxframesFreequeue - 1 } :=
                ⟨h.addrs, h.ctrls⟩
              have hheld : RxPriv.held
                  { rx with
                    rxframesFreequeue := rx.rxframesFreequeue - 1
                    stasReordList := rx.stasReordList ++ [⟨mac, fun _ => .fresh⟩] } = rx.held :=
                held_addSta
              exact unit_res (f := ⟨skb, tid, seqNum, forward, isAmsdu⟩)
                (hinv.addSta hsta) (sta?_addSta hsta) hheld
                (by simp only; omega)

/-- `reord_flush_tid` -/
theorem flushTid_res (h : RxInv rx) (iftype : Iftype) (skb : SkBuff) (tid : Fin 8) :
    StepRes rx (RxEvent.skbs (.flush iftype skb tid)) true (reordFlushTid iftype rx skb tid) := by
  have hsame : iftype ≠ .other →
      StepRes rx (RxEvent.skbs (.flush iftype skb tid)) true (rx, []) := fun hne => by
    have hskbs : RxEvent.skbs (.flush iftype skb tid) = [] := by
      cases iftype <;> simp_all [RxEvent.skbs]
    rw [hskbs]
    exact ⟨h, List.Perm.refl _, le_rfl, fun _ => rfl⟩
  have hpeer : ∀ {mac}, peerMac skb iftype = some mac → iftype ≠ .other := by
    rintro mac hmac rfl
    simp [peerMac] at hmac
  rw [reordFlushTid]
  cases hmac : peerMac skb iftype with
  | none =>
    obtain rfl := peerMac_eq_none hmac
    exact ⟨h, List.Perm.refl _, le_rfl, fun _ => rfl⟩
  | some mac =>
    simp only
    cases hsta : rx.sta? mac with
    | none => exact hsame (hpeer hmac)
    | some info =>
      simp only
      split
      next => exact hsame (hpeer hmac)
      next =>
        have hskbs : RxEvent.skbs (.flush iftype skb tid) = [] := by
          have := hpeer hmac
          cases iftype <;> simp_all [RxEvent.skbs]
        have hr : (packets (info.preorderCtrl tid).flush).Perm
            ([] ++ (info.preorderCtrl tid).reordList.map RecvMsdu.pkt) :=
          List.Perm.of_eq packets_flush
        have hpool := onCtrl_pool h.addrs hsta hr
        rw [hskbs]
        exact ⟨h.onCtrl CtrlInv.flush, onCtrl_packets h.addrs hsta hr, le_of_eq hpool,
          fun _ => hpool⟩

/-- A step of one control block that takes over no packet. -/
theorem ctrl_res (h : RxInv rx) (hsta : rx.sta? mac = some info) {r : ReordCtrl × List Fate}
    (hinv : CtrlInv r.1)
    (hr : packets r = (info.preorderCtrl tid).reordList.map RecvMsdu.pkt) {b : Bool} :
    StepRes rx [] b (rx.onCtrl mac tid r) := by
  have hr : (packets r).Perm ([] ++ (info.preorderCtrl tid).reordList.map RecvMsdu.pkt) :=
    List.Perm.of_eq hr
  have hpool := onCtrl_pool h.addrs hsta hr
  exact ⟨h.onCtrl hinv, onCtrl_packets h.addrs hsta hr, le_of_eq hpool, fun _ => hpool⟩

theorem flatMap_filter_eq {α β : Type} (p : α → Bool) (g : α → List β) (l : List α) :
    (l.filter p).flatMap g = l.flatMap fun a => if p a then g a else [] := by
  induction l with
  | nil => rfl
  | cons a l ih =>
    rw [List.filter_cons, List.flatMap_cons]
    split <;> simp_all

/-- `reord_deinit_sta` -/
theorem deinitSta_res (h : RxInv rx) (hsta : rx.sta? mac = some info) {b : Bool} :
    StepRes rx [] b (reordDeinitSta rx info) := by
  obtain ⟨hmem, rfl⟩ := sta?_eq_some hsta
  obtain ⟨rest, hold, hnew⟩ := flatMap_change h.addrs hmem
    (g := fun i => i.pending.map RecvMsdu.pkt)
    (h := fun i => if decide (i.macAddr ≠ info.macAddr) then i.pending.map RecvMsdu.pkt else [])
    fun i _ hne => by simp [hne]
  have hheld : (reordDeinitSta rx info).1.held.Perm rest := by
    simp only [RxPriv.held, reordDeinitSta, flatMap_filter_eq]
    simpa using hnew
  have hout : (reordDeinitSta rx info).2.map Fate.skb = info.pending.map RecvMsdu.pkt := by
    simp [reordDeinitSta, Fate.skb, Function.comp_def]
  have hpackets : ((reordDeinitSta rx info).2.map Fate.skb ++ (reordDeinitSta rx info).1.held).Perm
      ([] ++ rx.held) := by
    rw [hout]
    exact (hheld.append_left _).trans hold.symm
  have hpool : (reordDeinitSta rx info).1.descriptors = rx.descriptors := by
    have hlen := hpackets.length_eq
    rw [hout] at hlen
    simp only [List.length_append, List.length_map, List.nil_append] at hlen
    have hfree : (reordDeinitSta rx info).1.rxframesFreequeue =
      rx.rxframesFreequeue + info.pending.length := rfl
    simp only [RxPriv.descriptors]
    omega
  refine ⟨⟨h.addrs.sublist (List.filter_sublist.map _), fun i hi => ?_⟩, hpackets, le_of_eq hpool,
    fun _ => hpool⟩
  exact h.ctrls i (List.mem_filter.mp hi).1

theorem step_res (h : RxInv rx) {e : RxEvent} (hstep : rx.step e = some (rx', out)) :
    StepRes rx e.skbs e.regular (rx', out) := by
  cases e with
  | unit iftype initOk skb seqNum tid forward isAmsdu =>
    rw [← Option.some.inj hstep]
    exact processUnit_res h iftype initOk skb seqNum tid forward isAmsdu
  | flush iftype skb tid =>
    rw [← Option.some.inj hstep]
    exact flushTid_res h iftype skb tid
  | timer mac tid =>
    obtain ⟨info, hsta, hif⟩ := Option.bind_eq_some_iff.mp hstep
    obtain ⟨htimer, hr⟩ := Option.ite_none_right_eq_some.mp hif
    have hinv := h.ctrls info (sta?_eq_some hsta).1 tid
    rw [← Option.some.inj hr]
    exact ctrl_res h hsta (hinv.handler (hinv.enable_of_pending (Or.inl htimer)))
      (by simp [packets, reordTimeoutHandler])
  | work mac tid =>
    obtain ⟨info, hsta, hif⟩ := Option.bind_eq_some_iff.mp hstep
    obtain ⟨hwork, hr⟩ := Option.ite_none_right_eq_some.mp hif
    have hinv := h.ctrls info (sta?_eq_some hsta).1 tid
    rw [← Option.some.inj hr]
    exact ctrl_res h hsta (hinv.timeout (hinv.enable_of_pending (Or.inr hwork)))
      packets_reordTimeoutWorker
  | deinit mac =>
    obtain ⟨info, hsta, hr⟩ := Option.map_eq_some_iff.mp hstep
    rw [← hr]
    exact deinitSta_res h hsta

/-! ## Runs -/

theorem rxInv_init : RxInv .init := ⟨List.nodup_nil, by simp [RxPriv.init]⟩

/-- How far a frame is ahead of the number that is waited for. -/
def ahead (c : ReordCtrl) (f : RecvMsdu) : Nat := (f.seqNum + 4096 - c.indSn) % 4096

theorem Tracks.ahead_eq {s : State Numbered} (h : Tracks c s) {n : Nat} (hn : s.next = some n)
    {p : Numbered} (hp : p ∈ s.held) : ahead c p.2 = p.1 - n := by
  obtain ⟨hgt, hlt⟩ := h.inv.lt_of_next hn p hp
  have hind : c.indSn = n % 4096 := by simpa [hn] using h.ind
  rw [ahead, h.matching p hp, hind]
  omega

/-- What a control block holds is in order and inside the window. -/
theorem CtrlInv.window (h : CtrlInv c) :
    c.reordList.length < 64 ∧ (∀ f ∈ c.reordList, 0 < ahead c f ∧ ahead c f < 64) ∧
      c.reordList.Pairwise fun f g => ahead c f < ahead c g := by
  by_cases hen : c.enable = true
  · obtain ⟨s, ht, -⟩ := h.tracks hen
    have hahead : ∀ p ∈ s.held, ∃ n, s.next = some n ∧ n < p.1 ∧ p.1 < n + 64 ∧
        ahead c p.2 = p.1 - n := fun p hp => by
      obtain ⟨n, hn, hgt, hlt⟩ := ht.inv.inside p hp
      exact ⟨n, hn, hgt, hlt, ht.ahead_eq hn hp⟩
    rw [ht.list]
    refine ⟨by simpa using ht.inv.length_held_lt (by decide), ?_, ?_⟩
    · intro f hf
      obtain ⟨p, hp, rfl⟩ := List.mem_map.mp hf
      obtain ⟨n, -, hgt, hlt, heq⟩ := hahead p hp
      omega
    · rw [List.pairwise_map]
      refine ht.inv.ascending.imp_of_mem fun {p q} hp hq hlt => ?_
      obtain ⟨n, hn, hgt, -, heq⟩ := hahead p hp
      obtain ⟨n', hn', -, -, heq'⟩ := hahead q hq
      obtain rfl : n = n' := Option.some.inj (hn.symm.trans hn')
      omega
  · obtain ⟨hlist, -⟩ := h.idle (by simpa using hen)
    simp [hlist]

/-- In every state that is reached, with any stations, timers and orders of calls: a control block
holds less than a window of frames, in order and ahead of the number it waits for; if it holds any,
its timer or the work of it is pending; and one that is disabled has nothing pending. -/
theorem reorder_reachable (h : Reachable RxPriv.step (· = .init) rx) :
    (rx.stasReordList.map ReordCtrlInfo.macAddr).Nodup ∧
      ∀ i ∈ rx.stasReordList, ∀ tid, let c := i.preorderCtrl tid
        c.reordList.length < 64 ∧ (∀ f ∈ c.reordList, 0 < ahead c f ∧ ahead c f < 64) ∧
        (c.reordList.Pairwise fun f g => ahead c f < ahead c g) ∧
        (c.reordList ≠ [] → c.reordTimer = true ∨ c.reordTimerWork = true) ∧
        (c.enable = false →
          c.reordList = [] ∧ c.reordTimer = false ∧ c.reordTimerWork = false) := by
  have hinv : RxInv rx := reachable_invariant
    (fun s (hs : s = .init) => hs ▸ rxInv_init)
    (fun h hstep => (step_res h hstep).inv) h
  refine ⟨hinv.addrs, fun i hi tid => ?_⟩
  have hc := hinv.ctrls i hi tid
  obtain ⟨hlen, hahead, hsorted⟩ := hc.window
  exact ⟨hlen, hahead, hsorted, hc.watched, hc.idle⟩

/-- An IPv4 packet from `02:00:00:00:00:02` to the station `02:00:00:00:00:01`. -/
def samplePkt : SkBuff := ⟨[2, 0, 0, 0, 0, 1, 2, 0, 0, 0, 0, 2, 8, 0, 69], []⟩

def sampleTid : Fin 8 := 0

/-- A frame with that packet arrives. -/
def sampleUnit (seqNum : Fin 4096) : RxEvent :=
  .unit .station true samplePkt seqNum sampleTid true false

/-- The frame 7 is held after the frame 5. -/
theorem reorder_reachable_held :
    ∃ rx, Reachable RxPriv.step (· = .init) rx ∧ rx.held = [samplePkt] ∧
    (rx.stasReordList.map ReordCtrlInfo.macAddr).Nodup :=
  ⟨_, ⟨_, [sampleUnit 5, sampleUnit 7], _, rfl, rfl⟩, by decide,
    (reorder_reachable ⟨_, [sampleUnit 5, sampleUnit 7], _, rfl, rfl⟩).1⟩

/-- Every packet that came in was submitted or freed or is held, exactly once. The descriptors never
become more than there were, and none is lost unless a station came for which no control block
could be made. -/
theorem reorder_conserves {es : List RxEvent}
    (hrun : run RxPriv.step .init es = some (rx, out)) :
    (out.map Fate.skb ++ rx.held).Perm (es.flatMap RxEvent.skbs) ∧
      rx.descriptors ≤ maxReordRxframe ∧
      ((∀ e ∈ es, e.regular = true) → rx.descriptors = maxReordRxframe) := by
  have hI := run_history (I := fun rx es out => RxInv rx ∧
    (out.map Fate.skb ++ rx.held).Perm (es.flatMap RxEvent.skbs) ∧
      rx.descriptors ≤ maxReordRxframe ∧
      ((∀ e ∈ es, e.regular = true) → rx.descriptors = maxReordRxframe)) ?_ ?_ hrun
  · exact hI.2
  · exact ⟨rxInv_init, List.Perm.refl _, le_rfl, fun _ => rfl⟩
  · rintro rx es out e rx' out' ⟨hinv, hperm, hle, heq⟩ hstep
    have hres := step_res hinv hstep
    refine ⟨hres.inv, ?_, le_trans hres.pool hle, fun hreg => ?_⟩
    · rw [List.map_append, List.append_assoc, List.flatMap_append]
      refine (hres.packets.append_left _).trans ?_
      rw [← List.append_assoc]
      refine (List.perm_append_comm.append_right rx.held).trans ?_
      rw [List.append_assoc]
      refine (hperm.append_left _).trans ?_
      simpa using List.perm_append_comm
    · rw [hres.kept (hreg e (by simp)), heq fun e he => hreg e (by simp [he])]

theorem reorder_conserves_held : ∃ rx out,
    run RxPriv.step .init [sampleUnit 5, sampleUnit 7] = some (rx, out) ∧
      (out.map Fate.skb ++ rx.held).Perm [samplePkt, samplePkt] ∧ rx.descriptors = 250 := by
  refine ⟨_, _, rfl, ?_, ?_⟩
  · exact (reorder_conserves
      (show run RxPriv.step .init [sampleUnit 5, sampleUnit 7] = _ from rfl)).1
  · exact (reorder_conserves
      (show run RxPriv.step .init [sampleUnit 5, sampleUnit 7] = _ from rfl)).2.2 (by decide)

end Aic
