import LuckfoxPico.Aic.CmdMgr
import LuckfoxPico.Machine.Proofs.RunsProofs
import LuckfoxPico.Seq.Numbered

/-!
# Proofs: the command manager on the wire

Whatever callers, work item and firmware do, the queue holds confirmed commands that wait to be
removed, then at most one command that has been taken to the wire, then the deferred ones. So the
commands that are handed over and their confirmations take turns, in the order of the queue.
-/

namespace Aic

open StopWait

/-! ## Single operations -/

/-- The command that has been taken to the wire. -/
def RwnxCmd.current (c : RwnxCmd) : Bool := !c.waitPush && !c.complete

theorem queue_cases {s s' : CmdMgr} {c : Call} (h : s.queue c = some s') :
    c ∈ s.entering ∧
      (s' = { s with entering := s.entering.erase c, freeing := s.freeing ++ [c.slot] } ∨
        s.crashed = false ∧ (c.e2aMsg = true → s.cmds = []) ∧
          (s.cmds = [] ∨ s.queueSz ≠ rwnxCmdMaxQueued) ∧
          s' = { s with entering := s.entering.erase c }.enqueue c
            (busy s.cmds || c.kind ≠ SendKind.normal)) := by
  unfold CmdMgr.queue at h
  by_cases hc : c ∈ s.entering
  · refine ⟨hc, ?_⟩
    rw [if_neg (not_not.mpr hc)] at h
    by_cases hcrash : s.crashed
    · left
      symm
      simpa [hcrash] using h
    · by_cases he2a : c.e2aMsg = true ∧ s.cmds ≠ []
      · simp [hcrash, he2a.1, he2a.2] at h
      · by_cases hfull : s.cmds ≠ [] ∧ s.queueSz = rwnxCmdMaxQueued
        · left
          have : c.e2aMsg = false := by simpa [hfull.1] using he2a
          symm
          simpa [hcrash, hfull.1, hfull.2, this] using h
        · right
          refine ⟨by simpa using hcrash, fun h => not_not.mp fun hne => he2a ⟨h, hne⟩,
            by simpa [or_iff_not_imp_left] using hfull, ?_⟩
          have h1 : (c.e2aMsg && !s.crashed && !s.cmds.isEmpty) = false := by
            rcases Classical.em (s.cmds = []) with hnil | hne
            · simp [hnil]
            · have : c.e2aMsg = false := by simpa [hne] using he2a
              simp [this]
          have h2 : (!s.cmds.isEmpty && decide (s.queueSz = rwnxCmdMaxQueued)) = false := by
            simpa using hfull
          rw [h1] at h
          symm
          simpa [hcrash, h2] using h
  · simp [hc] at h

theorem completed?_spec {s : CmdMgr} {tkn : Nat} {c : RwnxCmd} (h : s.completed? tkn = some c) :
    c ∈ s.cmds ∧ c.tkn = tkn ∧ c.complete = true := by
  have := List.find?_some h
  simp only [Bool.and_eq_true, decide_eq_true_eq] at this
  exact ⟨List.mem_of_find?_eq_some h, this⟩

theorem missing?_spec {s : CmdMgr} {tkn : Nat} {c : RwnxCmd} (h : s.missing? tkn = some c) :
    c ∈ s.cmds ∧ c.tkn = tkn ∧ c.complete = false := by
  have := List.find?_some h
  simp only [Bool.and_eq_true, decide_eq_true_eq, Bool.not_eq_true'] at this
  exact ⟨List.mem_of_find?_eq_some h, this⟩

/-- A confirmation completes the first command that waits for it. -/
theorem cmdMgrMsgind_eq_some {r : Nat} {l l' : List RwnxCmd} {c : RwnxCmd}
    (h : cmdMgrMsgind r l = some (c, l')) :
    ∃ l₁ l₂, l = l₁ ++ c :: l₂ ∧
      l' = l₁ ++ { c with waitCfm := false, complete := true } :: l₂ ∧
      c.reqid = r ∧ c.waitCfm = true ∧ ∀ d ∈ l₁, d.reqid = r → d.waitCfm = false := by
  induction l generalizing c l' with
  | nil => simp [cmdMgrMsgind] at h
  | cons d l ih =>
    rw [cmdMgrMsgind] at h
    split at h
    · next hd =>
      obtain ⟨rfl, rfl⟩ : d = c ∧ _ = l' := by simpa using h
      simp only [Bool.and_eq_true, decide_eq_true_eq] at hd
      exact ⟨[], l, rfl, rfl, hd.1, hd.2, by simp⟩
    · next hd =>
      obtain ⟨⟨x, m⟩, hx, hxc⟩ := Option.map_eq_some_iff.mp h
      obtain ⟨rfl, rfl⟩ : x = c ∧ d :: m = l' := by simpa using hxc
      obtain ⟨l₁, l₂, rfl, h2, hr, hw, hfst⟩ := ih hx
      refine ⟨d :: l₁, l₂, rfl, by simp [h2], hr, hw, fun e he her => ?_⟩
      rcases List.mem_cons.mp he with rfl | he
      · simpa [her] using hd
      · exact hfst e he her

theorem cmdMgrMsgind_ne_none {r : Nat} {l : List RwnxCmd} {c : RwnxCmd} (hc : c ∈ l)
    (hr : c.reqid = r) (hw : c.waitCfm = true) : cmdMgrMsgind r l ≠ none := by
  induction l with
  | nil => simp at hc
  | cons d l ih =>
    rw [cmdMgrMsgind]
    split
    · simp
    · next hd =>
      rcases List.mem_cons.mp hc with rfl | hc
      · simp [hr, hw] at hd
      · simpa using ih hc

theorem filter_erase_of_false {p : RwnxCmd → Bool} {c : RwnxCmd} (hc : p c = false)
    (l : List RwnxCmd) : (l.erase c).filter p = l.filter p := by
  induction l with
  | nil => rfl
  | cons d l ih =>
    rw [List.erase_cons]
    split
    · next hd =>
      obtain rfl : d = c := by simpa using hd
      simp [hc]
    · simp [List.filter_cons, ih]

/-! ## What a step does -/

/-- The command that is queued is not deferred if its caller has a buffer. -/
theorem not_deferred_of_e2a {s : CmdMgr} {c : Call} (hcmds : c.e2aMsg = true → s.cmds = [])
    (h : (busy s.cmds || decide (c.kind ≠ .normal)) = true) : c.e2aMsg = false := by
  by_contra he
  have he : c.e2aMsg = true := by simpa using he
  simp [hcmds he, c.plain he, busy] at h

/-- The steps that are possible in a state: what they need, what they put out, where they lead. -/
inductive Effect (s : CmdMgr) : CmdEvent → List CmdOut → CmdMgr → Prop
  | malloc (reqid e2aMsg kind plain slot) (hslot : s.cmdMalloc = some slot) :
      Effect s (.malloc reqid e2aMsg kind plain) []
        { s with used := Function.update s.used slot true
                 entering := s.entering ++ [⟨slot, reqid, e2aMsg, kind, plain⟩] }
  | refuse (c) (hc : c ∈ s.entering) :
      Effect s (.queue c) []
        { s with entering := s.entering.erase c, freeing := s.freeing ++ [c.slot] }
  | enter (c) (deferPush : Bool) (hc : c ∈ s.entering) (he2a : c.e2aMsg = true → s.cmds = [])
      (hroom : s.cmds = [] ∨ s.queueSz ≠ rwnxCmdMaxQueued)
      (hdefer : deferPush = true → c.e2aMsg = false)
      (hidle : deferPush = false → busy s.cmds = false ∧ c.kind = .normal) :
      Effect s (.queue c) [] ({ s with entering := s.entering.erase c }.enqueue c deferPush)
  | push (t r) (hp : (t, r) ∈ s.pushing) :
      Effect s (.push t r) [.push t]
        { s with pushing := s.pushing.erase (t, r)
                 waiting := s.waiting ++ [t]
                 firmware := s.firmware ++ [r] }
  | finish (c) (ht : c.tkn ∈ s.waiting) (hc : c ∈ s.cmds) (hcomp : c.complete = true) :
      Effect s (.finish c.tkn) []
        { s.remove c with waiting := s.waiting.erase c.tkn, alerts := s.alerts ++ [.ifNonempty] }
  | expire (c : RwnxCmd) (ht : c.tkn ∈ s.waiting) (hc : c ∈ s.cmds) (hcomp : c.complete = false) :
      Effect s (.expire c.tkn) []
        { s with waiting := s.waiting.erase c.tkn, expired := s.expired ++ [c.tkn] }
  | crash (t) (ht : t ∈ s.expired) :
      Effect s (.crash t) [] { s with expired := s.expired.erase t, crashed := true }
  | alert (a) (ha : a ∈ s.alerts) :
      Effect s (.alert a) []
        { s with alerts := s.alerts.erase a, cmdWork := s.cmdWork || s.wakes a }
  | workStart (hw : s.cmdWork = true) (hoff : s.worker = .off) :
      Effect s .workStart [] { s with cmdWork := false, worker := .looking }
  | workStop (hlook : s.worker = .looking) (hhead : ∀ c ∈ s.cmds.head?, c.waitPush = false) :
      Effect s .workLook [] { s with worker := .off }
  | workPush (c l) (hlook : s.worker = .looking) (hcmds : s.cmds = c :: l)
      (hpush : c.waitPush = true) :
      Effect s .workLook [.push c.tkn]
        { s with cmds := { c with waitPush := false } :: l
                 worker := .waiting c.tkn
                 firmware := s.firmware ++ [c.reqid] }
  | workFinish (c) (hwait : s.worker = .waiting c.tkn) (hc : c ∈ s.cmds)
      (hcomp : c.complete = true) :
      Effect s .workFinish [] { s.remove c with worker := .looking }
  | workExpire (c : RwnxCmd) (hwait : s.worker = .waiting c.tkn) (hc : c ∈ s.cmds)
      (hcomp : c.complete = false) :
      Effect s .workExpire [] { s with worker := .expired c.tkn }
  | workCrash (t) (hexp : s.worker = .expired t) :
      Effect s .workCrash [] { s with worker := .looking, crashed := true }
  | unmatched (r) (hr : r ∈ s.firmware) (hm : cmdMgrMsgind r s.cmds = none) :
      Effect s (.confirm r) [.unmatched r] { s with firmware := s.firmware.erase r }
  | confirm (r c cmds) (hr : r ∈ s.firmware) (hm : cmdMgrMsgind r s.cmds = some (c, cmds)) :
      Effect s (.confirm r) (.cfm c.tkn :: if c.e2aMsg then [.write c.tkn] else [])
        { s with firmware := s.firmware.erase r, cmds := cmds }
  | mallocPass (slot) (hslot : s.cmdMalloc = some slot) :
      Effect s .mallocPass []
        { s with used := Function.update s.used slot true, passing := s.passing ++ [slot] }
  | pass (slot) (hslot : slot ∈ s.passing) :
      Effect s (.pass slot) [.pass]
        { s with passing := s.passing.erase slot, freeing := s.freeing ++ [slot] }
  | free (slot) (hslot : slot ∈ s.freeing) :
      Effect s (.free slot) [] ({ s with freeing := s.freeing.erase slot }.cmdFree slot)

theorem effect_of_step {s s' : CmdMgr} {e : CmdEvent} {out : List CmdOut}
    (hstep : s.step e = some (s', out)) : Effect s e out s' := by
  cases e with
  | malloc reqid e2aMsg kind plain =>
    obtain ⟨slot, hslot, hs'⟩ := Option.map_eq_some_iff.mp hstep
    obtain ⟨rfl, rfl⟩ := Prod.mk.inj hs'
    exact .malloc reqid e2aMsg kind plain slot hslot
  | queue c =>
    obtain ⟨t, ht, hs'⟩ := Option.map_eq_some_iff.mp hstep
    obtain ⟨rfl, rfl⟩ := Prod.mk.inj hs'
    obtain ⟨hc, rfl | ⟨-, he2a, hroom, rfl⟩⟩ := queue_cases ht
    · exact .refuse c hc
    · refine .enter c _ hc he2a hroom (not_deferred_of_e2a he2a) fun hb => ?_
      simpa using hb
  | push t r =>
    obtain ⟨hp, hstep⟩ := Option.ite_none_left_eq_some.mp hstep
    obtain ⟨rfl, rfl⟩ := Prod.mk.inj (Option.some.inj hstep)
    exact .push t r (not_not.mp hp)
  | finish t =>
    obtain ⟨ht, hstep⟩ := Option.ite_none_left_eq_some.mp hstep
    obtain ⟨c, hc, hs'⟩ := Option.map_eq_some_iff.mp hstep
    obtain ⟨rfl, rfl⟩ := Prod.mk.inj hs'
    obtain ⟨hmem, rfl, hcomp⟩ := completed?_spec hc
    exact .finish c (not_not.mp ht) hmem hcomp
  | expire t =>
    obtain ⟨ht, hstep⟩ := Option.ite_none_left_eq_some.mp hstep
    obtain ⟨c, hc, hs'⟩ := Option.map_eq_some_iff.mp hstep
    obtain ⟨rfl, rfl⟩ := Prod.mk.inj hs'
    obtain ⟨hmem, rfl, hcomp⟩ := missing?_spec hc
    exact .expire c (not_not.mp ht) hmem hcomp
  | crash t =>
    obtain ⟨ht, hstep⟩ := Option.ite_none_left_eq_some.mp hstep
    obtain ⟨rfl, rfl⟩ := Prod.mk.inj (Option.some.inj hstep)
    exact .crash t (not_not.mp ht)
  | alert a =>
    obtain ⟨ha, hstep⟩ := Option.ite_none_left_eq_some.mp hstep
    obtain ⟨rfl, rfl⟩ := Prod.mk.inj (Option.some.inj hstep)
    exact .alert a (not_not.mp ha)
  | workStart =>
    simp only [CmdMgr.step] at hstep
    split at hstep
    · next hw =>
      obtain ⟨rfl, rfl⟩ := Prod.mk.inj (Option.some.inj hstep)
      simp only [Bool.and_eq_true, decide_eq_true_eq] at hw
      exact .workStart hw.1 hw.2
    · cases hstep
  | workLook =>
    obtain ⟨hlook, hstep⟩ := Option.ite_none_left_eq_some.mp hstep
    split at hstep
    · next hnil =>
      obtain ⟨rfl, rfl⟩ := Prod.mk.inj (Option.some.inj hstep)
      exact .workStop (not_not.mp hlook) (by simp [hnil])
    · next c l hcmds =>
      split at hstep
      · next hpush =>
        obtain ⟨rfl, rfl⟩ := Prod.mk.inj (Option.some.inj hstep)
        exact .workPush c l (not_not.mp hlook) hcmds hpush
      · next hpush =>
        obtain ⟨rfl, rfl⟩ := Prod.mk.inj (Option.some.inj hstep)
        exact .workStop (not_not.mp hlook) (by simpa [hcmds] using hpush)
  | workFinish =>
    simp only [CmdMgr.step] at hstep
    split at hstep
    · next t hwait =>
      obtain ⟨c, hc, hs'⟩ := Option.map_eq_some_iff.mp hstep
      obtain ⟨rfl, rfl⟩ := Prod.mk.inj hs'
      obtain ⟨hmem, rfl, hcomp⟩ := completed?_spec hc
      exact .workFinish c hwait hmem hcomp
    · cases hstep
  | workExpire =>
    simp only [CmdMgr.step] at hstep
    split at hstep
    · next t hwait =>
      obtain ⟨c, hc, hs'⟩ := Option.map_eq_some_iff.mp hstep
      obtain ⟨rfl, rfl⟩ := Prod.mk.inj hs'
      obtain ⟨hmem, rfl, hcomp⟩ := missing?_spec hc
      exact .workExpire c hwait hmem hcomp
    · cases hstep
  | workCrash =>
    simp only [CmdMgr.step] at hstep
    split at hstep
    · next t hexp =>
      obtain ⟨rfl, rfl⟩ := Prod.mk.inj (Option.some.inj hstep)
      exact .workCrash t hexp
    · cases hstep
  | confirm r =>
    obtain ⟨hr, hstep⟩ := Option.ite_none_left_eq_some.mp hstep
    split at hstep
    · next hm =>
      obtain ⟨rfl, rfl⟩ := Prod.mk.inj (Option.some.inj hstep)
      exact .unmatched r (not_not.mp hr) hm
    · next c cmds hm =>
      obtain ⟨rfl, rfl⟩ := Prod.mk.inj (Option.some.inj hstep)
      exact .confirm r c cmds (not_not.mp hr) hm
  | mallocPass =>
    obtain ⟨slot, hslot, hs'⟩ := Option.map_eq_some_iff.mp hstep
    obtain ⟨rfl, rfl⟩ := Prod.mk.inj hs'
    exact .mallocPass slot hslot
  | pass slot =>
    obtain ⟨hslot, hstep⟩ := Option.ite_none_left_eq_some.mp hstep
    obtain ⟨rfl, rfl⟩ := Prod.mk.inj (Option.some.inj hstep)
    exact .pass slot (not_not.mp hslot)
  | free slot =>
    obtain ⟨hslot, hstep⟩ := Option.ite_none_left_eq_some.mp hstep
    obtain ⟨rfl, rfl⟩ := Prod.mk.inj (Option.some.inj hstep)
    exact .free slot (not_not.mp hslot)

/-! ## The invariant -/

/-- Later in the queue: a later token, and deferred unless the earlier command is confirmed. -/
def Behind (a b : RwnxCmd) : Prop :=
  a.tkn < b.tkn ∧ (a.complete = true ∨ b.waitPush = true)

/-- What is on the wire: nothing, a command that its caller is about to push, or a command that the
firmware is about to confirm. -/
inductive Wire (s : CmdMgr) : Bool → Prop
  | free (hcur : s.cmds.filter RwnxCmd.current = []) (hpush : s.pushing = [])
      (hfw : s.firmware = []) : Wire s false
  | entered (c : RwnxCmd) (hcur : s.cmds.filter RwnxCmd.current = [c])
      (hpush : s.pushing = [(c.tkn, c.reqid)]) (hfw : s.firmware = []) : Wire s false
  | sent (c : RwnxCmd) (hcur : s.cmds.filter RwnxCmd.current = [c]) (hpush : s.pushing = [])
      (hfw : s.firmware = [c.reqid]) : Wire s true

/-- The invariant, when the commands below the token `n` have been confirmed. -/
structure Queued (s : CmdMgr) (n : Nat) (taken : Bool) : Prop where
  size : s.queueSz = s.cmds.length
  room : s.queueSz ≤ rwnxCmdMaxQueued
  waitCfm : ∀ c ∈ s.cmds, c.waitCfm = !c.complete
  deferred : ∀ c ∈ s.cmds, c.waitPush = true → c.complete = false ∧ c.e2aMsg = false
  order : s.cmds.Pairwise Behind
  done : ∀ c ∈ s.cmds, c.complete = true → c.tkn < n
  missing : (s.cmds.filter fun c => !c.complete).map RwnxCmd.tkn = List.range' n (s.nextTkn - n)
  next : n ≤ s.nextTkn
  wire : Wire s taken

section Queued

variable {s s' : CmdMgr} {n : Nat} {b : Bool} {c : RwnxCmd}

theorem queued_init : Queued CmdMgr.init 0 false where
  size := rfl
  room := by decide
  waitCfm := by simp [CmdMgr.init]
  deferred := by simp [CmdMgr.init]
  order := List.Pairwise.nil
  done := by simp [CmdMgr.init]
  missing := rfl
  next := le_rfl
  wire := .free rfl rfl rfl

theorem Wire.congr (h : Wire s b)
    (hc : s'.cmds.filter RwnxCmd.current = s.cmds.filter RwnxCmd.current)
    (hp : s'.pushing = s.pushing) (hf : s'.firmware = s.firmware) : Wire s' b := by
  cases h with
  | free hcur hpush hfw => exact .free (hc.trans hcur) (hp.trans hpush) (hf.trans hfw)
  | entered c hcur hpush hfw => exact .entered c (hc.trans hcur) (hp.trans hpush) (hf.trans hfw)
  | sent c hcur hpush hfw => exact .sent c (hc.trans hcur) (hp.trans hpush) (hf.trans hfw)

/-- The invariant looks at the queue, its counters and the wire only. -/
theorem Queued.congr (h : Queued s n b) (hc : s'.cmds = s.cmds) (hz : s'.queueSz = s.queueSz)
    (ht : s'.nextTkn = s.nextTkn) (hp : s'.pushing = s.pushing) (hf : s'.firmware = s.firmware) :
    Queued s' n b where
  size := by rw [hz, hc, h.size]
  room := hz ▸ h.room
  waitCfm := hc ▸ h.waitCfm
  deferred := hc ▸ h.deferred
  order := hc ▸ h.order
  done := hc ▸ h.done
  missing := by rw [hc, ht, h.missing]
  next := ht ▸ h.next
  wire := h.wire.congr (by rw [hc]) hp hf

theorem Queued.tkn_lt (h : Queued s n b) (hc : c ∈ s.cmds) : c.tkn < s.nextTkn := by
  cases hcomp : c.complete with
  | true => exact lt_of_lt_of_le (h.done c hc hcomp) h.next
  | false =>
    have hmem : c.tkn ∈ (s.cmds.filter fun c => !c.complete).map RwnxCmd.tkn :=
      List.mem_map_of_mem (List.mem_filter.mpr ⟨hc, by simp [hcomp]⟩)
    rw [h.missing, List.mem_range'_1] at hmem
    have := h.next
    omega

/-- The command that has been taken to the wire is the next one. -/
theorem Queued.current_tkn (h : Queued s n b) (hc : c ∈ s.cmds) (hcur : c.current = true) :
    c.tkn = n := by
  obtain ⟨hpush, hcomp⟩ : c.waitPush = false ∧ c.complete = false := by
    simpa [RwnxCmd.current] using hcur
  have hmem : c ∈ s.cmds.filter fun c => !c.complete := List.mem_filter.mpr ⟨hc, by simp [hcomp]⟩
  have hmiss := h.missing
  have hord := h.order.filter (fun c => !c.complete)
  have hall : ∀ d ∈ s.cmds.filter (fun c => !c.complete), d.complete = false :=
    fun d hd => by simpa using (List.mem_filter.mp hd).2
  generalize s.cmds.filter (fun c => !c.complete) = l at hmem hmiss hord hall
  cases l with
  | nil => simp at hmem
  | cons d l =>
    have hd : d = c := by
      rcases List.mem_cons.mp hmem with rfl | hmem
      · rfl
      · have := ((List.pairwise_cons.mp hord).1 c hmem).2
        simp [hall d (by simp), hpush] at this
    obtain ⟨k, hk⟩ : ∃ k, s.nextTkn - n = k + 1 := by
      cases hk : s.nextTkn - n with
      | zero => simp [hk] at hmiss
      | succ k => exact ⟨k, rfl⟩
    rw [hk, List.range'_succ, List.map_cons, List.cons.injEq] at hmiss
    rw [← hd, hmiss.1]

/-- Behind a command that is not confirmed, all are deferred. -/
theorem deferred_behind {l₁ l₂ : List RwnxCmd} (hord : (l₁ ++ c :: l₂).Pairwise Behind)
    (hcomp : c.complete = false) : ∀ d ∈ l₂, d.waitPush = true := by
  intro d hd
  have := (List.pairwise_cons.mp (List.pairwise_append.mp hord).2.1).1 d hd
  simpa [hcomp] using this.2

/-- In front of a command that is not deferred, all are confirmed. -/
theorem complete_front {l₁ l₂ : List RwnxCmd} (hord : (l₁ ++ c :: l₂).Pairwise Behind)
    (hpush : c.waitPush = false) : ∀ d ∈ l₁, d.complete = true := by
  intro d hd
  have := (List.pairwise_append.mp hord).2.2 d hd c (by simp)
  simpa [hpush] using this.2

theorem filter_current_eq_nil {l : List RwnxCmd}
    (h : ∀ d ∈ l, d.complete = true ∨ d.waitPush = true) : l.filter RwnxCmd.current = [] := by
  refine List.filter_eq_nil_iff.mpr fun d hd => ?_
  rcases h d hd with hd | hd <;> simp [RwnxCmd.current, hd]

/-- If the first command is deferred, nothing has been taken to the wire. -/
theorem Queued.free_of_head {l : List RwnxCmd} (h : Queued s n b) (hcmds : s.cmds = c :: l)
    (hpush : c.waitPush = true) :
    b = false ∧ s.pushing = [] ∧ s.firmware = [] ∧ ∀ d ∈ l, d.waitPush = true := by
  have hcomp := (h.deferred c (by simp [hcmds]) hpush).1
  have hl : ∀ d ∈ l, d.waitPush = true := 
    deferred_behind (show ([] ++ c :: l).Pairwise Behind from hcmds ▸ h.order) hcomp
  have hcur : s.cmds.filter RwnxCmd.current = [] := by
    refine filter_current_eq_nil fun d hd => Or.inr ?_
    rw [hcmds] at hd
    rcases List.mem_cons.mp hd with rfl | hd
    · exact hpush
    · exact hl d hd
  cases h.wire with
  | free _ hp hf => exact ⟨rfl, hp, hf, hl⟩
  | entered c hc => simp [hcur] at hc
  | sent c hc => simp [hcur] at hc

/-- If the queue is not busy, all commands are confirmed. -/
theorem Queued.complete_of_not_busy (h : Queued s n b) (hb : busy s.cmds = false) :
    ∀ d ∈ s.cmds, d.complete = true := by
  rcases List.eq_nil_or_concat s.cmds with hnil | ⟨l, c, hc⟩
  · simp [hnil]
  · rw [List.concat_eq_append] at hc
    have hlast : c.waitPush = false ∧ c.waitCfm = false := by
      simpa [busy, hc] using hb
    have hcomp : c.complete = true := by
      have := h.waitCfm c (by simp [hc])
      simpa [hlast.2] using this.symm
    intro d hd
    rw [hc] at hd
    rcases List.mem_append.mp hd with hd | hd
    · exact complete_front (show (l ++ c :: []).Pairwise Behind from hc ▸ h.order) hlast.1 d hd
    · rw [List.mem_singleton.mp hd, hcomp]

/-! ## Steps -/

/-- A command enters the queue. -/
theorem Queued.enqueue (h : Queued s n b) {c : Call} {deferPush : Bool}
    (hroom : s.cmds = [] ∨ s.queueSz ≠ rwnxCmdMaxQueued)
    (hdefer : deferPush = true → c.e2aMsg = false)
    (hidle : deferPush = false → busy s.cmds = false) : Queued (s.enqueue c deferPush) n b := by
  have hsize := h.size
  have hlt : ∀ d ∈ s.cmds, d.tkn < s.nextTkn := fun d hd => h.tkn_lt hd
  have hnext := h.next
  refine ⟨?_, ?_, ?_, ?_, ?_, ?_, ?_, ?_, ?_⟩
  · simp [CmdMgr.enqueue, hsize]
  · have hroom' := h.room
    simp only [CmdMgr.enqueue]
    rcases hroom with hnil | hne
    · simp [hsize, hnil, rwnxCmdMaxQueued]
    · omega
  · intro d hd
    rcases List.mem_append.mp hd with hd | hd
    · exact h.waitCfm d hd
    · rw [List.mem_singleton.mp hd]
      rfl
  · intro d hd hpush
    rcases List.mem_append.mp hd with hd | hd
    · exact h.deferred d hd hpush
    · obtain rfl := List.mem_singleton.mp hd
      exact ⟨rfl, hdefer hpush⟩
  · refine List.pairwise_append.mpr ⟨h.order, List.pairwise_singleton _ _, fun d hd x hx => ?_⟩
    obtain rfl := List.mem_singleton.mp hx
    refine ⟨hlt d hd, ?_⟩
    cases deferPush with
    | true => exact Or.inr rfl
    | false => exact Or.inl (h.complete_of_not_busy (hidle rfl) d hd)
  · intro d hd hcomp
    rcases List.mem_append.mp hd with hd | hd
    · exact h.done d hd hcomp
    · simp [List.mem_singleton.mp hd] at hcomp
  · have hk : s.nextTkn + 1 - n = (s.nextTkn - n) + 1 := by omega
    have htkn : n + (s.nextTkn - n) = s.nextTkn := by omega
    simp only [CmdMgr.enqueue, List.filter_append, List.map_append, h.missing]
    rw [hk, List.range'_concat, Nat.one_mul, htkn]
    rfl
  · exact Nat.le_succ_of_le hnext
  · cases deferPush with
    | true => exact h.wire.congr (by simp [CmdMgr.enqueue, RwnxCmd.current]) rfl rfl
    | false =>
      -- all commands in front are confirmed, so the wire is free
      have hcur : s.cmds.filter RwnxCmd.current = [] :=
        filter_current_eq_nil fun d hd => Or.inl (h.complete_of_not_busy (hidle rfl) d hd)
      cases h.wire with
      | free _ hp hf =>
        exact .entered ⟨s.nextTkn, c.slot, c.reqid, c.e2aMsg, false, true, false⟩
          (by simp [CmdMgr.enqueue, hcur, RwnxCmd.current]) (by simp [CmdMgr.enqueue, hp]) hf
      | entered d hd => simp [hcur] at hd
      | sent d hd => simp [hcur] at hd

/-- A confirmed command is removed. -/
theorem Queued.remove (h : Queued s n b) (hc : c ∈ s.cmds) (hcomp : c.complete = true) :
    Queued (s.remove c) n b := by
  have hsub : (s.cmds.erase c).Sublist s.cmds := List.erase_sublist
  refine ⟨?_, ?_, ?_, ?_, ?_, ?_, ?_, ?_, ?_⟩
  · change s.queueSz - 1 = (s.cmds.erase c).length
    rw [List.length_erase_of_mem hc, h.size]
  · exact (Nat.sub_le _ _).trans h.room
  · exact fun d hd => h.waitCfm d (hsub.subset hd)
  · exact fun d hd => h.deferred d (hsub.subset hd)
  · exact h.order.sublist hsub
  · exact fun d hd => h.done d (hsub.subset hd)
  · change ((s.cmds.erase c).filter fun c => !c.complete).map RwnxCmd.tkn = _
    rw [filter_erase_of_false (by simp [hcomp])]
    exact h.missing
  · exact h.next
  · exact h.wire.congr (filter_erase_of_false (by simp [RwnxCmd.current, hcomp]) _) rfl rfl

/-- A caller pushes its command. -/
theorem Queued.push (h : Queued s n b) {t r : Nat} (hp : (t, r) ∈ s.pushing) :
    b = false ∧ t = n ∧
      Queued { s with pushing := s.pushing.erase (t, r)
                      waiting := s.waiting ++ [t]
                      firmware := s.firmware ++ [r] } n true := by
  cases h.wire with
  | free _ hpu => simp [hpu] at hp
  | sent _ _ hpu => simp [hpu] at hp
  | entered c hcur hpu hf =>
    obtain ⟨rfl, rfl⟩ : t = c.tkn ∧ r = c.reqid := by simpa [hpu] using hp
    have hc : c ∈ s.cmds ∧ c.current = true := List.mem_filter.mp (by simp [hcur])
    refine ⟨rfl, h.current_tkn hc.1 hc.2, ?_⟩
    exact ⟨h.size, h.room, h.waitCfm, h.deferred, h.order, h.done, h.missing, h.next,
      .sent c hcur (by simp [hpu]) (by simp [hf])⟩

/-- The work item pushes the first command. -/
theorem Queued.workPush (h : Queued s n b) {l : List RwnxCmd} (hcmds : s.cmds = c :: l)
    (hpush : c.waitPush = true) :
    b = false ∧ c.tkn = n ∧
      Queued { s with cmds := { c with waitPush := false } :: l
                      worker := .waiting c.tkn
                      firmware := s.firmware ++ [c.reqid] } n true := by
  obtain ⟨rfl, hpush0, hfw0, hl⟩ := h.free_of_head hcmds hpush
  have hcomp := (h.deferred c (by simp [hcmds]) hpush).1
  have hord := List.pairwise_cons.mp (hcmds ▸ h.order)
  have hmiss := h.missing
  rw [hcmds, List.filter_cons_of_pos (by simp [hcomp]), List.map_cons] at hmiss
  have hcur : l.filter RwnxCmd.current = [] := filter_current_eq_nil fun d hd => Or.inr (hl d hd)
  have hq : Queued { s with cmds := { c with waitPush := false } :: l
                            worker := .waiting c.tkn
                            firmware := s.firmware ++ [c.reqid] } n true := by
    refine ⟨?_, h.room, ?_, ?_, ?_, ?_, ?_, h.next, ?_⟩
    · simp [h.size, hcmds]
    · intro d hd
      rcases List.mem_cons.mp hd with rfl | hd
      · exact h.waitCfm c (by simp [hcmds])
      · exact h.waitCfm d (by simp [hcmds, hd])
    · intro d hd hdp
      rcases List.mem_cons.mp hd with rfl | hd
      · simp at hdp
      · exact h.deferred d (by simp [hcmds, hd]) hdp
    · exact List.pairwise_cons.mpr ⟨hord.1, hord.2⟩
    · intro d hd hdc
      rcases List.mem_cons.mp hd with rfl | hd
      · simp [hcomp] at hdc
      · exact h.done d (by simp [hcmds, hd]) hdc
    · rw [List.filter_cons_of_pos (by simp [hcomp]), List.map_cons]
      exact hmiss
    · refine .sent { c with waitPush := false } ?_ hpush0 (by simp [hfw0])
      rw [List.filter_cons_of_pos (by simp [RwnxCmd.current, hcomp]), hcur]
  refine ⟨rfl, ?_, hq⟩
  exact hq.current_tkn (c := { c with waitPush := false }) (List.mem_cons_self ..)
    (by simp [RwnxCmd.current, hcomp])

/-- The firmware confirms what was sent. -/
theorem Queued.confirm (h : Queued s n b) {r : Nat} (hr : r ∈ s.firmware) :
    b = true ∧ s.firmware = [r] ∧ ∃ c l₁ l₂, s.cmds = l₁ ++ c :: l₂ ∧ c.tkn = n ∧
      c.current = true ∧
      cmdMgrMsgind r s.cmds =
        some (c, l₁ ++ { c with waitCfm := false, complete := true } :: l₂) := by
  cases h.wire with
  | free _ _ hf => simp [hf] at hr
  | entered _ _ _ hf => simp [hf] at hr
  | sent c hcur _ hf =>
    obtain rfl : r = c.reqid := by simpa [hf] using hr
    obtain ⟨hc, hcc⟩ : c ∈ s.cmds ∧ c.current = true := List.mem_filter.mp (by simp [hcur])
    obtain ⟨hcp, hcomp⟩ : c.waitPush = false ∧ c.complete = false := by
      simpa [RwnxCmd.current] using hcc
    obtain ⟨⟨d, l'⟩, hd⟩ := Option.ne_none_iff_exists'.mp
      (cmdMgrMsgind_ne_none hc rfl (by rw [h.waitCfm c hc, hcomp]; rfl))
    obtain ⟨l₁, l₂, hl, hl', -, hdw, hfst⟩ := cmdMgrMsgind_eq_some hd
    have hdcomp : d.complete = false := by
      have := h.waitCfm d (by simp [hl])
      simpa [hdw] using this.symm
    -- the command found is the one on the wire: the others that wait are behind it
    have hdc : d = c := by
      have hc' := hc
      rw [hl] at hc'
      rcases List.mem_append.mp hc' with hc' | hc'
      · have := hfst c hc' rfl
        simp [h.waitCfm c hc, hcomp] at this
      · rcases List.mem_cons.mp hc' with rfl | hc'
        · rfl
        · have := deferred_behind (hl ▸ h.order) hdcomp c hc'
          simp [hcp] at this
    subst hdc
    exact ⟨rfl, hf, d, l₁, l₂, hl, h.current_tkn hc hcc, hcc, by rw [hd, hl']⟩

/-- A confirmation completes the command on the wire, and the next one is due. -/
theorem Queued.confirmed (h : Queued s n true) {l₁ l₂ : List RwnxCmd}
    (hcmds : s.cmds = l₁ ++ c :: l₂) (hcur : c.current = true)
    (hs' : s'.cmds = l₁ ++ { c with waitCfm := false, complete := true } :: l₂)
    (hz : s'.queueSz = s.queueSz) (ht : s'.nextTkn = s.nextTkn) (hpu : s'.pushing = [])
    (hfw : s'.firmware = []) : Queued s' (n + 1) false := by
  obtain ⟨hcp, hcomp⟩ : c.waitPush = false ∧ c.complete = false := by
    simpa [RwnxCmd.current] using hcur
  have hc : c ∈ s.cmds := by simp [hcmds]
  have htkn : c.tkn = n := h.current_tkn hc hcur
  have hlt : n < s.nextTkn := htkn ▸ h.tkn_lt hc
  have hfront := complete_front (hcmds ▸ h.order) hcp
  have hback := deferred_behind (hcmds ▸ h.order) hcomp
  have hmem : ∀ d ∈ s'.cmds,
      d ∈ s.cmds ∨ d = { c with waitCfm := false, complete := true } := by
    intro d hd
    rw [hs'] at hd
    rcases List.mem_append.mp hd with hd | hd
    · exact Or.inl (by simp [hcmds, hd])
    · rcases List.mem_cons.mp hd with rfl | hd
      · exact Or.inr rfl
      · exact Or.inl (by simp [hcmds, hd])
  refine ⟨?_, hz ▸ h.room, ?_, ?_, ?_, ?_, ?_, ht ▸ hlt, ?_⟩
  · rw [hz, h.size, hcmds, hs']
    simp
  · intro d hd
    rcases hmem d hd with hd | rfl
    · exact h.waitCfm d hd
    · rfl
  · intro d hd hdp
    rcases hmem d hd with hd | rfl
    · exact h.deferred d hd hdp
    · simp [hcp] at hdp
  · obtain ⟨h₁, h₂, h₃⟩ := List.pairwise_append.mp (hcmds ▸ h.order)
    obtain ⟨h₄, h₅⟩ := List.pairwise_cons.mp h₂
    rw [hs']
    refine List.pairwise_append.mpr ⟨h₁, List.pairwise_cons.mpr ⟨?_, h₅⟩, ?_⟩
    · exact fun d hd => ⟨(h₄ d hd).1, Or.inl rfl⟩
    · intro d hd x hx
      rcases List.mem_cons.mp hx with rfl | hx
      · exact ⟨(h₃ d hd c (by simp)).1, Or.inl (hfront d hd)⟩
      · exact h₃ d hd x (by simp [hx])
  · intro d hd hdc
    rcases hmem d hd with hd | rfl
    · exact Nat.lt_succ_of_lt (h.done d hd hdc)
    · exact htkn ▸ Nat.lt_succ_self _
  · have hmiss := h.missing
    obtain ⟨k, hk⟩ : ∃ k, s.nextTkn - n = k + 1 := ⟨s.nextTkn - n - 1, by omega⟩
    have hfilter : l₁.filter (fun c => !c.complete) = [] :=
      List.filter_eq_nil_iff.mpr fun d hd => by simp [hfront d hd]
    rw [hcmds, List.filter_append, hfilter, List.nil_append,
      List.filter_cons_of_pos (by simp [hcomp]), List.map_cons, hk, List.range'_succ,
      List.cons.injEq] at hmiss
    rw [hs', ht, List.filter_append, hfilter, List.nil_append, List.filter_cons_of_neg (by simp),
      hmiss.2, show s.nextTkn - (n + 1) = k by omega]
  · refine .free (filter_current_eq_nil fun d hd => ?_) hpu hfw
    rw [hs'] at hd
    rcases List.mem_append.mp hd with hd | hd
    · exact Or.inl (hfront d hd)
    · rcases List.mem_cons.mp hd with rfl | hd
      · exact Or.inl rfl
      · exact Or.inr (hback d hd)

end Queued

/-! ## Runs -/

/-- The commands that are handed over, and the confirmations. -/
def wireOf (out : List CmdOut) : List Signal :=
  out.filterMap fun
    | .push t => some (.send t)
    | .pass => none
    | .cfm t => some (.confirm t)
    | .write _ => none
    | .unmatched _ => some .stray

theorem wireOf_append (o₁ o₂ : List CmdOut) : wireOf (o₁ ++ o₂) = wireOf o₁ ++ wireOf o₂ :=
  List.filterMap_append

/-- A step adds to the wire what is next there. -/
theorem Queued.step {s s' : CmdMgr} {n : Nat} {b : Bool} {e : CmdEvent} {out : List CmdOut}
    (h : Queued s n b) (hstep : s.step e = some (s', out)) :
    ∃ n' b', trace n b ++ wireOf out = trace n' b' ∧ Queued s' n' b' := by
  have hquiet : ∀ {t : CmdMgr}, Queued t n b →
      ∃ n' b', trace n b ++ wireOf [] = trace n' b' ∧ Queued t n' b' :=
    fun ht => ⟨n, b, by simp [wireOf], ht⟩
  cases effect_of_step hstep with
  | enter c _ _ _ hroom hdefer hidle =>
    have h' : Queued { s with entering := s.entering.erase c } n b := h.congr rfl rfl rfl rfl rfl
    exact hquiet (h'.enqueue hroom hdefer fun hb => (hidle hb).1)
  | push t r hp =>
    obtain ⟨rfl, rfl, hq⟩ := h.push hp
    exact ⟨t, true, trace_send t, hq⟩
  | finish c _ hc hcomp => exact hquiet ((h.remove hc hcomp).congr rfl rfl rfl rfl rfl)
  | workFinish c _ hc hcomp => exact hquiet ((h.remove hc hcomp).congr rfl rfl rfl rfl rfl)
  | workPush c l _ hcmds hpush =>
    obtain ⟨rfl, rfl, hq⟩ := h.workPush hcmds hpush
    exact ⟨c.tkn, true, trace_send c.tkn, hq⟩
  | unmatched r hr hm =>
    obtain ⟨-, -, c, l₁, l₂, -, -, -, hm'⟩ := h.confirm hr
    rw [hm] at hm'
    cases hm'
  | confirm r c cmds hr hm =>
    obtain ⟨rfl, hfw, d, l₁, l₂, hcmds, rfl, hcur, hm'⟩ := h.confirm hr
    obtain ⟨rfl, rfl⟩ := Prod.mk.inj (Option.some.inj (hm.symm.trans hm'))
    have hpu : s.pushing = [] := by
      cases h.wire with
      | sent _ _ hpu => exact hpu
    refine ⟨c.tkn + 1, false, ?_, h.confirmed hcmds hcur rfl rfl rfl hpu (by simp [hfw])⟩
    have hwire : wireOf (.cfm c.tkn :: if c.e2aMsg then [.write c.tkn] else []) =
        [.confirm c.tkn] := by
      split <;> rfl
    rw [hwire, trace_confirm]
  | pass => exact ⟨n, b, by simp [wireOf], h.congr rfl rfl rfl rfl rfl⟩
  | malloc | refuse | expire | crash | alert | workStart | workStop | workExpire | workCrash
  | mallocPass | free =>
    exact hquiet (h.congr rfl rfl rfl rfl rfl)

theorem run_queued {s : CmdMgr} {es : List CmdEvent} {out : List CmdOut}
    (hrun : Machine.run CmdMgr.step CmdMgr.init es = some (s, out)) :
    ∃ n b, wireOf out = trace n b ∧ Queued s n b := by
  refine Machine.run_history (I := fun s _ o => ∃ n b, wireOf o = trace n b ∧ Queued s n b)
    ⟨0, false, rfl, queued_init⟩ ?_ hrun
  rintro s _ o e s' o' ⟨n, b, hw, hq⟩ hstep
  obtain ⟨n', b', hw', hq'⟩ := hq.step hstep
  exact ⟨n', b', by rw [wireOf_append, hw, hw'], hq'⟩

theorem plain_of_not_e2a (kind : SendKind) : false = true → kind = .normal := nofun

/-- A caller without a buffer comes, and enters the queue. -/
def sampleMalloc (reqid : Nat) (kind : SendKind) : CmdEvent :=
  .malloc reqid false kind (plain_of_not_e2a kind)

def sampleQueue (slot reqid : Nat) (kind : SendKind) : CmdEvent :=
  .queue ⟨slot, reqid, false, kind, plain_of_not_e2a kind⟩

/-- Two callers of a plain call. -/
def sampleCalls : List CmdEvent :=
  [sampleMalloc 5 .normal, sampleMalloc 6 .normal, sampleQueue 0 5 .normal,
    sampleQueue 1 6 .normal, .push 0 5, .alert .ifAlone, .confirm 5, .finish 0, .alert .ifNonempty,
    .workStart, .workLook]

/-- Whatever callers, work item and firmware do in whatever order: the commands are handed to
`aicwf_set_cmd_tx` in the order in which they were queued, none is left out, and each of them is
confirmed before the next one is handed over. A command that has been queued and not been confirmed
is in the queue, and the firmware owes a confirmation only for the one that was handed over last. -/
theorem commands_in_turn {s : CmdMgr} {es : List CmdEvent} {out : List CmdOut}
    (hrun : Machine.run CmdMgr.step CmdMgr.init es = some (s, out)) :
    ∃ n taken, wireOf out = trace n taken ∧ (taken = true ↔ s.firmware ≠ []) ∧
      s.cmds.length ≤ rwnxCmdMaxQueued ∧
      ∀ t < s.nextTkn, t < n ∨ ∃ c ∈ s.cmds, c.tkn = t ∧ c.complete = false := by
  obtain ⟨n, b, hwire, hq⟩ := run_queued hrun
  refine ⟨n, b, hwire, ?_, hq.size ▸ hq.room, fun t ht => ?_⟩
  · cases hq.wire with
    | free _ _ hfw => simp [hfw]
    | entered _ _ _ hfw => simp [hfw]
    | sent _ _ _ hfw => simp [hfw]
  · refine or_iff_not_imp_left.mpr fun hn => ?_
    have hmem : t ∈ (s.cmds.filter fun c => !c.complete).map RwnxCmd.tkn := by
      rw [hq.missing, List.mem_range'_1]
      omega
    obtain ⟨c, hc, rfl⟩ := List.mem_map.mp hmem
    obtain ⟨hc, hcomp⟩ := List.mem_filter.mp hc
    exact ⟨c, hc, rfl, by simpa using hcomp⟩

theorem commands_in_turn_two : ∃ s out,
    Machine.run CmdMgr.step CmdMgr.init sampleCalls = some (s, out) ∧
      out = [.push 0, .cfm 0, .push 1] ∧ ∃ n taken, wireOf out = trace n taken := by
  have hout : (Machine.run CmdMgr.step CmdMgr.init sampleCalls).map Prod.snd =
      some [.push 0, .cfm 0, .push 1] := by decide +kernel
  obtain ⟨⟨s, out⟩, hrun, rfl⟩ := Option.map_eq_some_iff.mp hout
  obtain ⟨n, taken, h, -⟩ := commands_in_turn hrun
  exact ⟨s, _, hrun, rfl, n, taken, h⟩

end Aic
