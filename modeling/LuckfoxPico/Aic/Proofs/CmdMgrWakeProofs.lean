import LuckfoxPico.Aic.Proofs.CmdMgrOwnersProofs

/-!
# Proofs: who wakes the work item

A caller that has deferred its command wakes the work item only if it then finds its own command
alone in the queue. As long as no caller gets in between, a deferred command at the head of the
queue is always attended to. If one does, the two of them can leave the queue with nobody attending
to it, and no call but one with `defer` gets it going again.
-/

namespace Aic

/-- The command at the head of the queue is deferred. -/
def CmdMgr.Pending (s : CmdMgr) : Prop :=
  ∃ c ∈ s.cmds.head?, c.waitPush = true

/-- The work item runs or will be woken. -/
def CmdMgr.Attended (s : CmdMgr) : Prop :=
  s.cmdWork = true ∨ s.worker ≠ .off ∨
    ∃ a ∈ s.alerts, a = .ifAlone → s.queueSz ≤ 1

/-- A step in which no caller enters the queue while another one is about to see whether its command
is alone there. -/
def CmdMgr.promptStep (s : CmdMgr) (e : CmdEvent) : Option (CmdMgr × List CmdOut) :=
  match e with
  | .queue _ => if .ifAlone ∈ s.alerts then none else s.step e
  | _ => s.step e

section Attended

variable {s s' : CmdMgr} {n : Nat} {b : Bool} {c : RwnxCmd} {e : CmdEvent} {out : List CmdOut}

theorem promptStep_spec (h : s.promptStep e = some (s', out)) :
    s.step e = some (s', out) ∧ ∀ c, e = .queue c → .ifAlone ∉ s.alerts := by
  unfold CmdMgr.promptStep at h
  split at h
  · next c =>
    split at h
    · cases h
    · next ha => exact ⟨h, fun _ _ => ha⟩
  · next hne => exact ⟨h, fun c he => absurd he (hne c)⟩

theorem pending_cons {l : List RwnxCmd} (hcmds : s.cmds = c :: l) :
    s.Pending ↔ c.waitPush = true := by
  simp [CmdMgr.Pending, hcmds]

theorem not_pending_nil (hcmds : s.cmds = []) : ¬ s.Pending := by
  simp [CmdMgr.Pending, hcmds]

/-- The work item is still attended to if everything it could be woken by is still there. -/
theorem CmdMgr.Attended.mono (h : s.Attended) (hw : s'.cmdWork = s.cmdWork)
    (hworker : s'.worker = s.worker) (hz : s'.queueSz ≤ s.queueSz)
    (ha : ∀ a ∈ s.alerts, a ∈ s'.alerts) : s'.Attended := by
  rcases h with h | h | ⟨a, hmem, halone⟩
  · exact Or.inl (hw.trans h)
  · exact Or.inr (Or.inl (hworker ▸ h))
  · exact Or.inr (Or.inr ⟨a, ha a hmem, fun he => hz.trans (halone he)⟩)

/-- A caller that leaves wakes the work item or leaves it to another one. -/
theorem CmdMgr.Attended.alert (h : s.Attended) (hp : s.Pending) (a : Alert) :
    { s with alerts := s.alerts.erase a, cmdWork := s.cmdWork || s.wakes a }.Attended := by
  rcases h with h | h | ⟨x, hmem, halone⟩
  · exact Or.inl (by simp [h])
  · exact Or.inr (Or.inl h)
  · by_cases hx : x = a
    · refine Or.inl ?_
      subst hx
      cases x with
      | ifNonempty =>
        obtain ⟨c, hc, -⟩ := hp
        have : s.cmds ≠ [] := fun hnil => by simp [hnil] at hc
        simp [CmdMgr.wakes, this]
      | ifAlone => simp [CmdMgr.wakes, halone rfl]
      | always => simp [CmdMgr.wakes]
    · exact Or.inr (Or.inr ⟨x, (List.mem_erase_of_ne hx).mpr hmem, halone⟩)

/-- A call with nobody about to look at `queue_sz` leaves the queue attended to. -/
theorem CmdMgr.Attended.enqueue (h : s.Pending → s.Attended) (hsize : s.queueSz = s.cmds.length)
    (halone : .ifAlone ∉ s.alerts) {c : Call} {deferPush : Bool}
    (hp : (s.enqueue c deferPush).Pending) : (s.enqueue c deferPush).Attended := by
  have halerts : ∀ a ∈ s.alerts, a ∈ (s.enqueue c deferPush).alerts := by
    intro a ha
    simp only [CmdMgr.enqueue]
    split
    · exact List.mem_append_left _ ha
    · split
      · exact List.mem_append_left _ ha
      · exact ha
  cases hcmds : s.cmds with
  | nil =>
    -- the caller's own command is at the head, so the caller itself will wake the work item
    have hdefer : deferPush = true := by
      simpa [CmdMgr.Pending, CmdMgr.enqueue, hcmds] using hp
    subst hdefer
    by_cases hk : c.kind = .force
    · exact Or.inr (Or.inr ⟨.always, by simp [CmdMgr.enqueue, hk], by simp⟩)
    · refine Or.inr (Or.inr ⟨.ifAlone, by simp [CmdMgr.enqueue, hk], fun _ => ?_⟩)
      simp [CmdMgr.enqueue, hsize, hcmds]
  | cons d l =>
    have hpend : s.Pending := by
      rw [pending_cons hcmds]
      simpa [CmdMgr.Pending, CmdMgr.enqueue, hcmds] using hp
    rcases h hpend with hw | hw | ⟨a, ha, -⟩
    · exact Or.inl hw
    · exact Or.inr (Or.inl hw)
    · exact Or.inr (Or.inr ⟨a, halerts a ha, fun he => absurd (he ▸ ha) halone⟩)

theorem attended_step (h : s.Pending → s.Attended) (hq : Queued s n b)
    (hstep : s.promptStep e = some (s', out)) : s'.Pending → s'.Attended := by
  obtain ⟨hstep, hprompt⟩ := promptStep_spec hstep
  intro hp
  cases effect_of_step hstep with
  | enter c deferPush =>
    exact CmdMgr.Attended.enqueue (s := { s with entering := s.entering.erase c }) h hq.size
      (hprompt c rfl) hp
  | alert a => exact (h hp).alert hp a
  | finish => exact Or.inr (Or.inr ⟨.ifNonempty, by simp, by simp⟩)
  | workStart => exact Or.inr (Or.inl (by simp))
  | workStop _ hhead =>
    obtain ⟨c, hc, hpush⟩ := hp
    simp [hhead c hc] at hpush
  | workPush => exact Or.inr (Or.inl (by simp))
  | workFinish => exact Or.inr (Or.inl (by simp))
  | workExpire => exact Or.inr (Or.inl (by simp))
  | workCrash => exact Or.inr (Or.inl (by simp))
  | confirm r c cmds hr hm =>
    obtain ⟨l₁, l₂, hl, rfl, -⟩ := cmdMgrMsgind_eq_some hm
    have hpend : s.Pending := by
      cases l₁ with
      | nil => simpa [CmdMgr.Pending, hl] using hp
      | cons d l₁ => simpa [CmdMgr.Pending, hl] using hp
    exact (h hpend).mono rfl rfl le_rfl fun a ha => ha
  | malloc | refuse | push | expire | crash | unmatched | mallocPass | pass | free =>
    exact (h hp).mono rfl rfl le_rfl fun a ha => ha

end Attended

/-! ## Nobody attends -/

section Stalled

variable {s s' : CmdMgr} {n : Nat} {b : Bool} {e : CmdEvent} {out : List CmdOut}

/-- A call that wakes the work item in any case. -/
def CmdEvent.forces : CmdEvent → Bool
  | .malloc _ _ kind _ => kind = .force
  | _ => false

/-- The head of the queue waits for somebody to push it, and nobody will. -/
structure CmdMgr.Stalled (s : CmdMgr) : Prop where
  pending : s.Pending
  unattended : ¬ s.Attended
  unforced : ∀ c ∈ s.entering, c.kind ≠ .force

/-- If the head of the queue is deferred, nobody waits for a confirmation. -/
theorem Owned.callers_eq_nil (h : Owned s) (hq : Queued s n b) (hp : s.Pending) :
    s.pushing = [] ∧ s.waiting = [] ∧ s.expired = [] ∧ s.firmware = [] ∧
      ∀ d ∈ s.cmds, d.waitPush = true := by
  obtain ⟨c, hc, hpush⟩ := hp
  obtain ⟨l, hcmds⟩ : ∃ l, s.cmds = c :: l := by
    cases hcmds : s.cmds with
    | nil => simp [hcmds] at hc
    | cons d l => exact ⟨l, by simpa [hcmds] using hc⟩
  obtain ⟨-, hpushing, hfw, hl⟩ := hq.free_of_head hcmds hpush
  have hall : ∀ d ∈ s.cmds, d.waitPush = true := by
    intro d hd
    rw [hcmds] at hd
    rcases List.mem_cons.mp hd with rfl | hd
    · exact hpush
    · exact hl d hd
  have hnone : ∀ t, t ∉ s.owners := by
    intro t ht
    obtain ⟨d, hd, -, hdp⟩ := h.pushed t ht
    simp [hall d hd] at hdp
  refine ⟨hpushing, ?_, ?_, hfw, hall⟩
  · exact List.eq_nil_iff_forall_not_mem.mpr fun t ht =>
      hnone t (by simp [CmdMgr.owners, CmdMgr.callers, ht])
  · exact List.eq_nil_iff_forall_not_mem.mpr fun t ht =>
      hnone t (by simp [CmdMgr.owners, CmdMgr.callers, ht])

theorem busy_of_deferred {l : List RwnxCmd} (hne : l ≠ []) (h : ∀ d ∈ l, d.waitPush = true) :
    busy l = true := by
  obtain ⟨l, c, rfl⟩ := List.eq_nil_or_concat l |>.resolve_left hne
  simp [busy, h c (by simp)]

theorem CmdMgr.Stalled.step (h : s.Stalled) (hq : Queued s n b) (ho : Owned s)
    (hforce : e.forces = false) (hstep : s.step e = some (s', out)) :
    s'.Stalled ∧ ∀ o ∈ out, o = .pass := by
  obtain ⟨hpushing, hwaiting, hexpired, hfw, hall⟩ := ho.callers_eq_nil hq h.pending
  have hwork : s.cmdWork = false := by
    by_contra hw
    exact h.unattended (Or.inl (by simpa using hw))
  have hoff : s.worker = .off := by
    by_contra hw
    exact h.unattended (Or.inr (Or.inl hw))
  have halerts : ∀ a ∈ s.alerts, a = .ifAlone ∧ 2 ≤ s.queueSz := by
    intro a ha
    by_contra hne
    refine h.unattended (Or.inr (Or.inr ⟨a, ha, fun he => ?_⟩))
    have : ¬ 2 ≤ s.queueSz := fun hz => hne ⟨he, hz⟩
    omega
  have hne : s.cmds ≠ [] := fun hnil => not_pending_nil hnil h.pending
  have hquiet : ∀ o ∈ ([] : List CmdOut), o = .pass := nofun
  cases effect_of_step hstep with
  | pass => exact ⟨⟨h.pending, h.unattended, h.unforced⟩, fun o ho => List.mem_singleton.mp ho⟩
  | mallocPass | free => exact ⟨⟨h.pending, h.unattended, h.unforced⟩, hquiet⟩
  | malloc reqid e2aMsg kind plain slot hslot =>
    refine ⟨⟨h.pending, h.unattended, fun c hc => ?_⟩, hquiet⟩
    rcases List.mem_append.mp hc with hc | hc
    · exact h.unforced c hc
    · rw [List.mem_singleton.mp hc]
      simpa [CmdEvent.forces] using hforce
  | refuse c =>
    exact ⟨⟨h.pending, h.unattended, fun d hd => h.unforced d (List.mem_of_mem_erase hd)⟩, hquiet⟩
  | enter c deferPush hc he2a hroom hdefer hidle =>
    have hd : deferPush = true := by
      by_contra hd
      simp [busy_of_deferred hne hall] at hidle
      exact hd hidle
    subst hd
    have hkind := h.unforced c hc
    have hz : 1 ≤ s.queueSz := by
      rw [hq.size]
      exact List.length_pos_iff.mpr hne
    refine ⟨⟨?_, ?_, fun d hd => h.unforced d (List.mem_of_mem_erase hd)⟩, hquiet⟩
    · obtain ⟨d, hd, hdp⟩ := h.pending
      exact ⟨d, by simp [CmdMgr.enqueue, List.head?_append, Option.mem_def.mp hd], hdp⟩
    · rintro (hw | hw | ⟨a, ha, halone⟩)
      · simp [CmdMgr.enqueue, hwork] at hw
      · simp [CmdMgr.enqueue, hoff] at hw
      · have hle : s.queueSz + 1 ≤ 1 := by
          refine halone ?_
          simp only [CmdMgr.enqueue, hkind, if_false, if_true] at ha
          rcases List.mem_append.mp ha with ha | ha
          · exact (halerts a ha).1
          · exact List.mem_singleton.mp ha
        omega
  | alert a ha =>
    obtain ⟨rfl, hz⟩ := halerts a ha
    refine ⟨⟨h.pending, ?_, h.unforced⟩, hquiet⟩
    rintro (hw | hw | ⟨x, hx, halone⟩)
    · simp [CmdMgr.wakes, hwork] at hw
      omega
    · exact hw hoff
    · have hmem := List.mem_of_mem_erase hx
      exact h.unattended (Or.inr (Or.inr ⟨x, hmem, halone⟩))
  | push t r hp => simp [hpushing] at hp
  | finish c ht => simp [hwaiting] at ht
  | expire c ht => simp [hwaiting] at ht
  | crash t ht => simp [hexpired] at ht
  | workStart hw => simp [hwork] at hw
  | workStop hlook => simp [hoff] at hlook
  | workPush c l hlook => simp [hoff] at hlook
  | workFinish c hwait => simp [hoff] at hwait
  | workExpire c hwait => simp [hoff] at hwait
  | workCrash t hexp => simp [hoff] at hexp
  | unmatched r hr => simp [hfw] at hr
  | confirm r c cmds hr => simp [hfw] at hr

end Stalled

/-! ## Runs -/

/-- The states of the runs in which no caller enters the queue while another one is about to see
whether its command is alone there. -/
abbrev CmdMgr.PromptReachable : CmdMgr → Prop :=
  Machine.Reachable CmdMgr.promptStep (· = CmdMgr.init)

theorem promptReachable_good {s : CmdMgr} (h : s.PromptReachable) :
    (∃ n b, Queued s n b) ∧ Owned s ∧ (s.Pending → s.Attended) := by
  refine Machine.reachable_invariant
    (I := fun s => (∃ n b, Queued s n b) ∧ Owned s ∧ (s.Pending → s.Attended)) ?_ ?_ h
  · rintro s rfl
    exact ⟨⟨0, false, queued_init⟩, owned_init, fun hp => absurd hp (not_pending_nil rfl)⟩
  · rintro s e s' out ⟨⟨n, b, hq⟩, ho, ha⟩ hstep
    have hstep' := (promptStep_spec hstep).1
    obtain ⟨n', b', -, hq'⟩ := hq.step hstep'
    exact ⟨⟨n', b', hq'⟩, ho.step hq hstep', attended_step ha hq hstep⟩

/-- If no caller gets between another one's unlock and its look at `queue_sz`, a deferred command at
the head of the queue is attended to; and once callers and work item have come to rest without a
crash, no command is left. -/
theorem prompt_attended {s : CmdMgr} (h : s.PromptReachable) :
    (s.Pending → s.Attended) ∧
      (s.cmdWork = false → s.worker = .off → s.alerts = [] → s.callers = [] →
        s.crashed = false → s.cmds = []) := by
  obtain ⟨-, ho, ha⟩ := promptReachable_good h
  refine ⟨ha, fun hw hoff halerts hcall hcrash => ?_⟩
  cases hcmds : s.cmds with
  | nil => rfl
  | cons c l =>
    exfalso
    by_cases hpush : c.waitPush = true
    · rcases ha ((pending_cons hcmds).mpr hpush) with hw' | hw' | ⟨a, hmem, -⟩
      · simp [hw] at hw'
      · exact hw' hoff
      · simp [halerts] at hmem
    · rcases ho.kept c (by simp [hcmds]) (by simpa using hpush) with hc | hc
      · simp [hcrash] at hc
      · simp [CmdMgr.owners, hcall, hoff, Worker.tkns] at hc

/-- One caller after the other: the first one sends, the second one is deferred. -/
def samplePrompt : List CmdEvent :=
  [sampleMalloc 5 .normal, sampleQueue 0 5 .normal, .push 0 5,
    sampleMalloc 6 .normal, sampleQueue 1 6 .normal, .confirm 5,
    .finish 0]

theorem prompt_attended_two : ∃ s : CmdMgr, s.PromptReachable ∧ s.Pending ∧ s.Attended := by
  have hend : (Machine.run CmdMgr.promptStep CmdMgr.init samplePrompt).map
      (fun r => r.1.cmds.head?.map RwnxCmd.waitPush) = some (some true) := by decide +kernel
  obtain ⟨⟨s, out⟩, hrun, hs⟩ := Option.map_eq_some_iff.mp hend
  obtain ⟨c, hc, hpush⟩ := Option.map_eq_some_iff.mp hs
  have hreach : s.PromptReachable := ⟨_, _, _, rfl, hrun⟩
  exact ⟨s, hreach, ⟨c, hc, hpush⟩, (prompt_attended hreach).1 ⟨c, hc, hpush⟩⟩

/-- From a state in which nobody attends to the deferred command at the head of the queue, nothing
but messages without a confirmation is put out any more, whatever happens, until a call with `defer`
comes: no command is handed over or confirmed, and callers with a buffer wait without end. -/
theorem stalled_stays {s s' : CmdMgr} {es : List CmdEvent} {out : List CmdOut}
    (h : s.Reachable) (hst : s.Stalled) (hforce : ∀ e ∈ es, e.forces = false)
    (hrun : Machine.run CmdMgr.step s es = some (s', out)) :
    s'.Stalled ∧ ∀ o ∈ out, o = .pass := by
  obtain ⟨⟨n, b, hq⟩, ho, -⟩ := reachable_good h
  induction es generalizing s n b out with
  | nil =>
    obtain ⟨rfl, rfl⟩ : s = s' ∧ out = [] := by simpa [eq_comm] using hrun
    exact ⟨hst, nofun⟩
  | cons e es ih =>
    obtain ⟨t, o₁, o₂, hstep, hrest, rfl⟩ := Machine.run_cons_eq_some_iff.mp hrun
    obtain ⟨hst', ho₁⟩ := hst.step hq ho (hforce e (by simp)) hstep
    obtain ⟨n', b', -, hq'⟩ := hq.step hstep
    have ht : t.Reachable := by
      obtain ⟨s₀, fs, o, h₀, hfs⟩ := h
      refine ⟨s₀, fs ++ [e], o ++ (o₁ ++ []), h₀, ?_⟩
      exact Machine.run_append_eq_some_iff.mpr
        ⟨s, o, _, hfs, Machine.run_cons_eq_some_iff.mpr ⟨t, o₁, [], hstep, rfl, rfl⟩, rfl⟩
    obtain ⟨hst'', ho₂⟩ :=
      ih ht hst' (fun e he => hforce e (by simp [he])) hrest n' b' hq' (ho.step hq hstep)
    exact ⟨hst'', fun o hmem => (List.mem_append.mp hmem).elim (ho₁ o) (ho₂ o)⟩

/-- Two callers whose commands are deferred, the second one between the first one's unlock and its
look at `queue_sz`. -/
def sampleStall : List CmdEvent :=
  [sampleMalloc 5 .deferId, sampleMalloc 6 .normal,
    sampleQueue 0 5 .deferId, sampleQueue 1 6 .normal,
    .alert .ifAlone, .alert .ifAlone]

theorem stalled_stays_two : ∃ s s' : CmdMgr, s.Reachable ∧ s.Stalled ∧ s.cmds.length = 2 ∧
    Machine.run CmdMgr.step s [sampleMalloc 7 .normal, .mallocPass, .pass 3] = some (s', [.pass]) ∧
      s'.Stalled := by
  have hend : (Machine.run CmdMgr.step CmdMgr.init sampleStall).map
      (fun r => ((r.1.cmds.length, r.1.cmds.head?.map RwnxCmd.waitPush, r.1.cmdWork),
        (r.1.worker, r.1.alerts, r.1.entering.length))) =
      some ((2, some true, false), (.off, [], 0)) := by decide +kernel
  have hsent : (Machine.run CmdMgr.step CmdMgr.init sampleStall).map Prod.snd = some [] := by
    decide +kernel
  have hmore : (Machine.run CmdMgr.step CmdMgr.init
      (sampleStall ++ [sampleMalloc 7 .normal, .mallocPass, .pass 3])).map Prod.snd =
        some [.pass] := by
    decide +kernel
  obtain ⟨⟨s, out⟩, hrun, hs⟩ := Option.map_eq_some_iff.mp hend
  simp only [Prod.mk.injEq, List.length_eq_zero_iff] at hs
  obtain ⟨⟨hlen, hhead, hwork⟩, hoff, halerts, hentering⟩ := hs
  obtain rfl : out = [] := Option.some.inj (by rw [← hsent, hrun]; rfl)
  obtain ⟨⟨s', o⟩, hrun', ho⟩ := Option.map_eq_some_iff.mp hmore
  obtain ⟨t, o₁, o₂, hrun₁, hrun₂, hout⟩ := Machine.run_append_eq_some_iff.mp hrun'
  obtain ⟨rfl, rfl⟩ := Prod.mk.inj (Option.some.inj (hrun.symm.trans hrun₁))
  obtain rfl : o₂ = [.pass] := hout.symm.trans ho
  have hreach : s.Reachable := ⟨_, _, _, rfl, hrun⟩
  have hst : s.Stalled := by
    refine ⟨Option.map_eq_some_iff.mp hhead, ?_, by simp [hentering]⟩
    rintro (h | h | ⟨a, ha, -⟩)
    · simp [hwork] at h
    · exact h hoff
    · simp [halerts] at ha
  have hst' := (stalled_stays hreach hst (by simp [sampleMalloc, CmdEvent.forces]) hrun₂).1
  exact ⟨s, s', hreach, hst, hlen, hrun₂, hst'⟩

end Aic
