import Mathlib.Data.List.Nodup
import LuckfoxPico.Aic.Proofs.CmdMgrProofs

/-!
# Proofs: who removes a command

A command that has been taken out of the deferred ones has one owner, the caller that queued it or
the work item, which waits for its confirmation and removes it. Only after a wait has run out does a
command stay behind. The elements of `cmd_array` are those of the callers about to queue or to hand
a message over, those of the queue, and those about to be freed, each used once.
-/

namespace Aic

/-! ## Owners -/

/-- The command the work item is responsible for. -/
def Worker.tkns : Worker → List Nat
  | .off => []
  | .looking => []
  | .waiting t => [t]
  | .expired t => [t]

/-- The commands whose callers have not returned. -/
def CmdMgr.callers (s : CmdMgr) : List Nat :=
  s.pushing.map Prod.fst ++ s.waiting ++ s.expired

/-- The commands that somebody is responsible for. -/
def CmdMgr.owners (s : CmdMgr) : List Nat :=
  s.callers ++ s.worker.tkns

/-- Commands that have left the deferred ones have one owner, and callers with a buffer do not
return before their command is removed, until the manager crashes. -/
structure Owned (s : CmdMgr) : Prop where
  nodup : s.owners.Nodup
  pushed : ∀ t ∈ s.owners, ∃ c ∈ s.cmds, c.tkn = t ∧ c.waitPush = false
  kept : ∀ c ∈ s.cmds, c.waitPush = false → s.crashed = true ∨ c.tkn ∈ s.owners
  buffer : ∀ c ∈ s.cmds, c.e2aMsg = true → s.crashed = true ∨ c.tkn ∈ s.callers

section Owned

variable {s s' : CmdMgr} {n : Nat} {b : Bool} {c d : RwnxCmd}

theorem owned_init : Owned CmdMgr.init where
  nodup := List.nodup_nil
  pushed := by simp [CmdMgr.init, CmdMgr.owners, CmdMgr.callers, Worker.tkns]
  kept := by simp [CmdMgr.init]
  buffer := by simp [CmdMgr.init]

/-- What the owners look at in a command. -/
def SameOwner (c d : RwnxCmd) : Prop :=
  c.tkn = d.tkn ∧ c.waitPush = d.waitPush ∧ c.e2aMsg = d.e2aMsg

/-- The owners change places, and the commands keep what the owners look at. -/
theorem Owned.congr (h : Owned s) (hfwd : ∀ d ∈ s'.cmds, ∃ c ∈ s.cmds, SameOwner c d)
    (hback : ∀ c ∈ s.cmds, ∃ d ∈ s'.cmds, SameOwner c d) (hcall : s'.callers.Perm s.callers)
    (hwork : s'.worker.tkns = s.worker.tkns) (hcrash : s'.crashed = s.crashed) : Owned s' := by
  have hown : s'.owners.Perm s.owners := by
    unfold CmdMgr.owners
    rw [hwork]
    exact hcall.append_right _
  refine ⟨hown.nodup_iff.mpr h.nodup, fun t ht => ?_, fun d hd hp => ?_, fun d hd he => ?_⟩
  · obtain ⟨c, hc, hct, hcp⟩ := h.pushed t (hown.mem_iff.mp ht)
    obtain ⟨d, hd, htkn, hpush, -⟩ := hback c hc
    exact ⟨d, hd, htkn ▸ hct, hpush ▸ hcp⟩
  · obtain ⟨c, hc, htkn, hpush, -⟩ := hfwd d hd
    rw [hcrash, hown.mem_iff, ← htkn]
    exact h.kept c hc (hpush ▸ hp)
  · obtain ⟨c, hc, htkn, -, he2a⟩ := hfwd d hd
    rw [hcrash, hcall.mem_iff, ← htkn]
    exact h.buffer c hc (he2a ▸ he)

/-- The owners change places. -/
theorem Owned.perm (h : Owned s) (hcmds : s'.cmds = s.cmds) (hcall : s'.callers.Perm s.callers)
    (hwork : s'.worker.tkns = s.worker.tkns) (hcrash : s'.crashed = s.crashed) : Owned s' :=
  h.congr (fun d hd => ⟨d, hcmds ▸ hd, rfl, rfl, rfl⟩) (fun c hc => ⟨c, hcmds ▸ hc, rfl, rfl, rfl⟩)
    hcall hwork hcrash

theorem eq_of_tkn (h : Queued s n b) (hc : c ∈ s.cmds) (hd : d ∈ s.cmds) (ht : c.tkn = d.tkn) :
    c = d := by
  have hnd : (s.cmds.map RwnxCmd.tkn).Nodup :=
    List.pairwise_map.mpr (h.order.imp fun hb => Nat.ne_of_lt hb.1)
  exact List.inj_on_of_nodup_map hnd hc hd ht

/-- An owner removes its command. -/
theorem Owned.remove (h : Owned s) (hq : Queued s n b) (hc : c ∈ s.cmds)
    (hcmds : s'.cmds = s.cmds.erase c) (hown : s.owners.Perm (c.tkn :: s'.owners))
    (hcall : ∀ t ∈ s.callers, t ≠ c.tkn → t ∈ s'.callers) (hcrash : s'.crashed = s.crashed) :
    Owned s' := by
  obtain ⟨hnot, hnd⟩ := List.nodup_cons.mp (hown.nodup_iff.mp h.nodup)
  have hcmdsNd : s.cmds.Nodup := hq.order.imp fun hb he => by subst he; exact absurd hb.1 (by simp)
  have herase : ∀ d ∈ s'.cmds, d ∈ s.cmds ∧ d.tkn ≠ c.tkn := by
    intro d hd
    rw [hcmds, hcmdsNd.mem_erase_iff] at hd
    exact ⟨hd.2, fun ht => hd.1 (eq_of_tkn hq hd.2 hc ht)⟩
  refine ⟨hnd, fun t ht => ?_, fun d hd hp => ?_, fun d hd he => ?_⟩
  · obtain ⟨d, hd, hdt, hdp⟩ := h.pushed t (hown.mem_iff.mpr (List.mem_cons_of_mem _ ht))
    refine ⟨d, ?_, hdt, hdp⟩
    rw [hcmds, hcmdsNd.mem_erase_iff]
    refine ⟨fun hdc => hnot ?_, hd⟩
    rw [← hdc, hdt]
    exact ht
  · obtain ⟨hd, hne⟩ := herase d hd
    rw [hcrash]
    exact (h.kept d hd hp).imp_right fun hmem =>
      (List.mem_cons.mp (hown.mem_iff.mp hmem)).resolve_left hne
  · obtain ⟨hd, hne⟩ := herase d hd
    rw [hcrash]
    exact (h.buffer d hd he).imp_right fun hmem => hcall _ hmem hne

/-- The manager has crashed. -/
theorem Owned.crash (h : Owned s) (hcmds : s'.cmds = s.cmds) (hown : s'.owners.Sublist s.owners)
    (hcrash : s'.crashed = true) : Owned s' where
  nodup := h.nodup.sublist hown
  pushed := fun t ht => hcmds ▸ h.pushed t (hown.subset ht)
  kept := fun _ _ _ => Or.inl hcrash
  buffer := fun _ _ _ => Or.inl hcrash

/-- A command enters the queue: deferred, or with its caller as the owner. -/
theorem Owned.enqueue (h : Owned s) (hq : Queued s n b) {c : Call} {deferPush : Bool}
    (hdefer : deferPush = true → c.e2aMsg = false) : Owned (s.enqueue c deferPush) := by
  cases deferPush with
  | true =>
    refine ⟨h.nodup, fun t ht => ?_, fun d hd hp => ?_, fun d hd he => ?_⟩
    · obtain ⟨d, hd, hdt⟩ := h.pushed t ht
      exact ⟨d, List.mem_append_left _ hd, hdt⟩
    · rcases List.mem_append.mp hd with hd | hd
      · exact h.kept d hd hp
      · simp [List.mem_singleton.mp hd] at hp
    · rcases List.mem_append.mp hd with hd | hd
      · exact h.buffer d hd he
      · simp [List.mem_singleton.mp hd, hdefer rfl] at he
  | false =>
    have hcall : (s.enqueue c false).callers.Perm (s.nextTkn :: s.callers) := by
      simp only [CmdMgr.callers, CmdMgr.enqueue, Bool.false_eq_true, if_false, List.map_append,
        List.append_assoc]
      exact List.perm_middle
    have hown : (s.enqueue c false).owners.Perm (s.nextTkn :: s.owners) := hcall.append_right _
    have hnew : s.nextTkn ∉ s.owners := by
      intro hmem
      obtain ⟨d, hd, hdt, -⟩ := h.pushed _ hmem
      exact absurd (hq.tkn_lt hd) (by omega)
    refine ⟨hown.nodup_iff.mpr (List.nodup_cons.mpr ⟨hnew, h.nodup⟩), fun t ht => ?_,
      fun d hd hp => ?_, fun d hd he => ?_⟩
    · rcases List.mem_cons.mp (hown.mem_iff.mp ht) with rfl | ht
      · exact ⟨_, List.mem_append_right _ (List.mem_singleton_self _), rfl, rfl⟩
      · obtain ⟨d, hd, hdt⟩ := h.pushed t ht
        exact ⟨d, List.mem_append_left _ hd, hdt⟩
    · rw [hown.mem_iff]
      rcases List.mem_append.mp hd with hd | hd
      · exact (h.kept d hd hp).imp_right (List.mem_cons_of_mem _)
      · exact Or.inr (by simp [List.mem_singleton.mp hd])
    · rw [hcall.mem_iff]
      rcases List.mem_append.mp hd with hd | hd
      · exact (h.buffer d hd he).imp_right (List.mem_cons_of_mem _)
      · exact Or.inr (by simp [List.mem_singleton.mp hd])

/-- The work item becomes the owner of the first command. -/
theorem Owned.workPush (h : Owned s) (hq : Queued s n b) {l : List RwnxCmd}
    (hlook : s.worker = .looking) (hcmds : s.cmds = c :: l) (hpush : c.waitPush = true) :
    Owned { s with cmds := { c with waitPush := false } :: l
                   worker := .waiting c.tkn
                   firmware := s.firmware ++ [c.reqid] } := by
  have hcall : s.owners = s.callers := by simp [CmdMgr.owners, hlook, Worker.tkns]
  -- all owners are behind the first command
  have hother : ∀ t ∈ s.owners, ∃ d ∈ l, d.tkn = t ∧ d.waitPush = false ∧ t ≠ c.tkn := by
    intro t ht
    obtain ⟨d, hd, hdt, hdp⟩ := h.pushed t ht
    have hne : d ≠ c := fun hdc => by simp [hdc, hpush] at hdp
    have hdl : d ∈ l := by simpa [hcmds, hne] using hd
    exact ⟨d, hdl, hdt, hdp, fun htc => hne (eq_of_tkn hq hd (by simp [hcmds]) (hdt.trans htc))⟩
  have hmem : ∀ d ∈ l, d ∈ s.cmds := fun d hd => by simp [hcmds, hd]
  refine ⟨?_, fun t ht => ?_, fun d hd hp => ?_, fun d hd he => ?_⟩
  · refine List.nodup_append.mpr ⟨hcall ▸ h.nodup, List.pairwise_singleton _ _, fun t ht x hx => ?_⟩
    obtain ⟨-, -, -, -, hne⟩ := hother t (hcall ▸ ht)
    rw [List.mem_singleton.mp hx]
    exact hne
  · rcases List.mem_append.mp ht with ht | ht
    · obtain ⟨d, hd, hdt, hdp, -⟩ := hother t (hcall ▸ ht)
      exact ⟨d, List.mem_cons_of_mem _ hd, hdt, hdp⟩
    · exact ⟨_, List.mem_cons_self .., (List.mem_singleton.mp ht).symm, rfl⟩
  · rcases List.mem_cons.mp hd with rfl | hd
    · exact Or.inr (List.mem_append_right _ (List.mem_singleton_self _))
    · exact (h.kept d (hmem d hd) hp).imp_right fun hd =>
        List.mem_append_left _ (hcall ▸ hd)
  · rcases List.mem_cons.mp hd with rfl | hd
    · simp [(hq.deferred c (by simp [hcmds]) hpush).2] at he
    · exact h.buffer d (hmem d hd) he

/-- A confirmation leaves what the owners look at. -/
theorem sameOwner_msgind {r : Nat} {l l' : List RwnxCmd} (hm : cmdMgrMsgind r l = some (c, l')) :
    (∀ d ∈ l', ∃ c ∈ l, SameOwner c d) ∧ ∀ c ∈ l, ∃ d ∈ l', SameOwner c d := by
  obtain ⟨l₁, l₂, rfl, rfl, -⟩ := cmdMgrMsgind_eq_some hm
  have hsame : SameOwner c { c with waitCfm := false, complete := true } := ⟨rfl, rfl, rfl⟩
  constructor
  · intro d hd
    rcases List.mem_append.mp hd with hd | hd
    · exact ⟨d, by simp [hd], rfl, rfl, rfl⟩
    · rcases List.mem_cons.mp hd with rfl | hd
      · exact ⟨c, by simp, hsame⟩
      · exact ⟨d, by simp [hd], rfl, rfl, rfl⟩
  · intro d hd
    rcases List.mem_append.mp hd with hd | hd
    · exact ⟨d, by simp [hd], rfl, rfl, rfl⟩
    · rcases List.mem_cons.mp hd with rfl | hd
      · exact ⟨_, by simp, hsame⟩
      · exact ⟨d, by simp [hd], rfl, rfl, rfl⟩

theorem Owned.step {e : CmdEvent} {out : List CmdOut} (h : Owned s) (hq : Queued s n b)
    (hstep : s.step e = some (s', out)) : Owned s' := by
  cases effect_of_step hstep with
  | enter c deferPush _ _ _ hdefer _ =>
    have h' : Owned { s with entering := s.entering.erase c } := h.perm rfl (.refl _) rfl rfl
    exact h'.enqueue (hq.congr rfl rfl rfl rfl rfl) hdefer
  | push t r hp =>
    refine h.perm rfl (List.perm_iff_count.mpr fun x => ?_) rfl rfl
    -- the token moves from the callers that push to those that wait
    have hperm := ((List.perm_cons_erase hp).map Prod.fst).count_eq x
    simp only [CmdMgr.callers, List.count_append, List.map_cons, List.count_cons,
      List.count_nil] at hperm ⊢
    omega
  | finish c ht hc hcomp =>
    refine h.remove hq hc rfl (List.perm_iff_count.mpr fun x => ?_) (fun t hmem hne => ?_) rfl
    · have hperm := (List.perm_cons_erase ht).count_eq x
      simp only [CmdMgr.owners, CmdMgr.callers, CmdMgr.remove, List.count_append,
        List.count_cons] at hperm ⊢
      omega
    · simpa [CmdMgr.callers, CmdMgr.remove, List.mem_erase_of_ne hne] using hmem
  | expire c ht _ _ =>
    refine h.perm rfl (List.perm_iff_count.mpr fun x => ?_) rfl rfl
    have hperm := (List.perm_cons_erase ht).count_eq x
    simp only [CmdMgr.callers, List.count_append, List.count_cons, List.count_nil] at hperm ⊢
    omega
  | crash t _ =>
    exact h.crash rfl (((List.erase_sublist).append_left _).append_right _) rfl
  | workStart _ hoff => exact h.perm rfl (.refl _) (by simp [hoff, Worker.tkns]) rfl
  | workStop hlook _ => exact h.perm rfl (.refl _) (by simp [hlook, Worker.tkns]) rfl
  | workPush c l hlook hcmds hpush => exact h.workPush hq hlook hcmds hpush
  | workFinish c hwait hc hcomp =>
    refine h.remove hq hc rfl ?_ (fun t hmem _ => hmem) rfl
    simp only [CmdMgr.owners, hwait, Worker.tkns, List.append_nil]
    exact List.perm_append_singleton _ _
  | workExpire c hwait _ _ => exact h.perm rfl (.refl _) (by simp [hwait, Worker.tkns]) rfl
  | workCrash t hexp =>
    refine h.crash rfl ?_ rfl
    simp [CmdMgr.owners, CmdMgr.callers, Worker.tkns]
  | confirm r c cmds hr hm =>
    obtain ⟨hfwd, hback⟩ := sameOwner_msgind hm
    exact h.congr hfwd hback (.refl _) rfl rfl
  | malloc | refuse | alert | unmatched | mallocPass | pass | free =>
    exact h.perm rfl (.refl _) rfl rfl

end Owned

/-! ## Elements of the array -/

/-- The elements of `cmd_array` of the callers about to queue, of the queue, of the callers of
messages without a confirmation, and of those who are about to free theirs. -/
def CmdMgr.slots (s : CmdMgr) : List Nat :=
  s.entering.map Call.slot ++ s.cmds.map RwnxCmd.slot ++ s.passing ++ s.freeing

/-- Every element that is marked is somebody's, and only one's. -/
structure Slotted (s : CmdMgr) : Prop where
  nodup : s.slots.Nodup
  used : ∀ i, s.used i = true ↔ i ∈ s.slots
  bound : ∀ i ∈ s.slots, i < rwnxCmdArraySize

section Slotted

variable {s s' : CmdMgr} {c : RwnxCmd}

theorem slotted_init : Slotted CmdMgr.init where
  nodup := List.nodup_nil
  used := by simp [CmdMgr.init, CmdMgr.slots]
  bound := by simp [CmdMgr.init, CmdMgr.slots]

/-- The elements change places. -/
theorem Slotted.perm (h : Slotted s) (hused : s'.used = s.used) (hslots : s'.slots.Perm s.slots) :
    Slotted s' where
  nodup := hslots.nodup_iff.mpr h.nodup
  used := fun i => by rw [hused, h.used, hslots.mem_iff]
  bound := fun i hi => h.bound i (hslots.mem_iff.mp hi)

theorem cmdMalloc_spec {slot : Nat} (h : s.cmdMalloc = some slot) :
    slot < rwnxCmdArraySize ∧ s.used slot = false := by
  have hused := List.find?_some h
  exact ⟨List.mem_range.mp (List.mem_of_find?_eq_some h), by simpa using hused⟩

/-- An element is taken. -/
theorem Slotted.malloc (h : Slotted s) {slot : Nat} (hslot : s.cmdMalloc = some slot)
    (hused : s'.used = Function.update s.used slot true)
    (hslots : s'.slots.Perm (slot :: s.slots)) : Slotted s' := by
  obtain ⟨hlt, hfree⟩ := cmdMalloc_spec hslot
  have hnot : slot ∉ s.slots := fun hmem => by simp [(h.used slot).mpr hmem] at hfree
  refine ⟨hslots.nodup_iff.mpr (List.nodup_cons.mpr ⟨hnot, h.nodup⟩), fun i => ?_, fun i hi => ?_⟩
  · rw [hused, hslots.mem_iff, List.mem_cons]
    by_cases hi : i = slot
    · simp [hi]
    · simp [hi, h.used]
  · rcases List.mem_cons.mp (hslots.mem_iff.mp hi) with rfl | hi
    · exact hlt
    · exact h.bound i hi

/-- An element is given back. -/
theorem Slotted.free (h : Slotted s) {slot : Nat}
    (hused : s'.used = Function.update s.used slot false)
    (hslots : s.slots.Perm (slot :: s'.slots)) : Slotted s' := by
  obtain ⟨hnot, hnd⟩ := List.nodup_cons.mp (hslots.nodup_iff.mp h.nodup)
  refine ⟨hnd, fun i => ?_, fun i hi => h.bound i (hslots.mem_iff.mpr (List.mem_cons_of_mem _ hi))⟩
  rw [hused]
  by_cases hi : i = slot
  · simp [hi, hnot]
  · simp [hi, h.used, hslots.mem_iff]

/-- The element of a command that leaves the queue is about to be freed. -/
theorem slots_remove (hc : c ∈ s.cmds) : (s.remove c).slots.Perm s.slots := by
  refine List.perm_iff_count.mpr fun x => ?_
  have hperm := ((List.perm_cons_erase hc).map RwnxCmd.slot).count_eq x
  simp only [CmdMgr.slots, CmdMgr.remove, List.count_append, List.map_cons, List.count_cons,
    List.count_nil] at hperm ⊢
  omega

theorem Slotted.step {e : CmdEvent} {out : List CmdOut} (h : Slotted s)
    (hstep : s.step e = some (s', out)) : Slotted s' := by
  cases effect_of_step hstep with
  | malloc reqid e2aMsg kind plain slot hslot =>
    refine h.malloc hslot rfl ?_
    simp only [CmdMgr.slots, List.map_append, List.append_assoc]
    exact List.perm_middle
  | mallocPass slot hslot =>
    refine h.malloc hslot rfl ?_
    simp only [CmdMgr.slots]
    rw [← List.append_assoc, List.append_assoc (_ ++ s.passing)]
    exact List.perm_middle
  | refuse c hc =>
    refine h.perm rfl (List.perm_iff_count.mpr fun x => ?_)
    have hperm := ((List.perm_cons_erase hc).map Call.slot).count_eq x
    simp only [CmdMgr.slots, List.count_append, List.map_cons, List.count_cons,
      List.count_nil] at hperm ⊢
    omega
  | pass slot hslot =>
    refine h.perm rfl (List.perm_iff_count.mpr fun x => ?_)
    have hperm := (List.perm_cons_erase hslot).count_eq x
    simp only [CmdMgr.slots, List.count_append, List.count_cons, List.count_nil] at hperm ⊢
    omega
  | free slot hslot =>
    refine h.free rfl (List.perm_iff_count.mpr fun x => ?_)
    have hperm := (List.perm_cons_erase hslot).count_eq x
    simp only [CmdMgr.slots, CmdMgr.cmdFree, List.count_append, List.count_cons] at hperm ⊢
    omega
  | enter c deferPush hc =>
    refine h.perm rfl (List.perm_iff_count.mpr fun x => ?_)
    have hperm := ((List.perm_cons_erase hc).map Call.slot).count_eq x
    simp only [CmdMgr.slots, CmdMgr.enqueue, List.count_append, List.map_append, List.map_cons,
      List.count_cons, List.map_nil, List.count_nil] at hperm ⊢
    omega
  | finish c _ hc _ => exact h.perm rfl (slots_remove hc)
  | workFinish c _ hc _ => exact h.perm rfl (slots_remove hc)
  | workPush c l _ hcmds _ => exact h.perm rfl (by simp [CmdMgr.slots, hcmds])
  | confirm r c cmds hr hm =>
    obtain ⟨l₁, l₂, hl, rfl, -⟩ := cmdMgrMsgind_eq_some hm
    exact h.perm rfl (by simp [CmdMgr.slots, hl])
  | push | expire | crash | alert | workStart | workStop | workExpire | workCrash | unmatched =>
    exact h.perm rfl (.refl _)

end Slotted

/-! ## Reachable states -/

/-- The states of the runs of the driver. -/
abbrev CmdMgr.Reachable : CmdMgr → Prop :=
  Machine.Reachable CmdMgr.step (· = CmdMgr.init)

theorem reachable_good {s : CmdMgr} (h : s.Reachable) :
    (∃ n b, Queued s n b) ∧ Owned s ∧ Slotted s := by
  refine Machine.reachable_invariant (I := fun s => (∃ n b, Queued s n b) ∧ Owned s ∧ Slotted s)
    ?_ ?_ h
  · rintro s rfl
    exact ⟨⟨0, false, queued_init⟩, owned_init, slotted_init⟩
  · rintro s e s' out ⟨⟨n, b, hq⟩, ho, hs⟩ hstep
    obtain ⟨n', b', -, hq'⟩ := hq.step hstep
    exact ⟨⟨n', b', hq'⟩, ho.step hq hstep, hs.step hstep⟩

/-- In every state that is reached: a command that has been taken out of the deferred ones has one
owner that will remove it, or the manager has crashed, and no command has two; an element of
`cmd_array` is marked exactly if it belongs to a caller about to queue or to hand a message over, to
a command in the queue, or to somebody about to free it, and no two of them have the same one. -/
theorem cmdMgr_reachable {s : CmdMgr} (h : s.Reachable) : Owned s ∧ Slotted s :=
  (reachable_good h).2

theorem cmdMgr_reachable_deferred : ∃ s : CmdMgr, s.Reachable ∧ s.owners = [1] ∧
    s.slots = [1, 2, 0] ∧ Owned s ∧ Slotted s := by
  have hend : (Machine.run CmdMgr.step CmdMgr.init (sampleCalls ++ [.mallocPass])).map
      (fun r => (r.1.owners, r.1.slots)) = some ([1], [1, 2, 0]) := by decide +kernel
  obtain ⟨⟨s, out⟩, hrun, hs⟩ := Option.map_eq_some_iff.mp hend
  obtain ⟨hown, hslots⟩ := Prod.mk.inj hs
  have hreach : s.Reachable := ⟨_, _, _, rfl, hrun⟩
  exact ⟨s, hreach, hown, hslots, cmdMgr_reachable hreach⟩

/-- A confirmation is copied into the buffer of a caller that has not returned, unless the manager
has crashed. -/
theorem confirm_writes {s s' : CmdMgr} {e : CmdEvent} {out : List CmdOut} {t : Nat}
    (h : s.Reachable) (hstep : s.step e = some (s', out)) (hw : .write t ∈ out) :
    s.crashed = true ∨ t ∈ s.callers := by
  have ho := (reachable_good h).2.1
  cases effect_of_step hstep with
  | confirm r c cmds hr hm =>
    obtain ⟨l₁, l₂, hl, -⟩ := cmdMgrMsgind_eq_some hm
    by_cases he : c.e2aMsg = true
    · obtain rfl : t = c.tkn := by simpa [he] using hw
      exact ho.buffer c (by simp [hl]) he
    · simp [he] at hw
  | push | workPush | unmatched | pass => simp at hw
  | malloc | refuse | enter | finish | expire | crash | alert | workStart | workStop | workFinish
    | workExpire | workCrash | mallocPass | free => simp at hw

/-- A call with a buffer, up to the wire. -/
def sampleE2a : List CmdEvent :=
  [.malloc 5 true .normal (fun _ => rfl), .queue ⟨0, 5, true, .normal, fun _ => rfl⟩, .push 0 5]

theorem confirm_writes_waiting : ∃ s s' : CmdMgr, s.Reachable ∧
    s.step (.confirm 5) = some (s', [.cfm 0, .write 0]) ∧ s.crashed = false ∧
      (s.crashed = true ∨ 0 ∈ s.callers) := by
  have hend : (Machine.run CmdMgr.step CmdMgr.init sampleE2a).map
      (fun r => (r.1.crashed, (r.1.step (.confirm 5)).map Prod.snd)) =
        some (false, some [.cfm 0, .write 0]) := by decide +kernel
  obtain ⟨⟨s, out⟩, hrun, hs⟩ := Option.map_eq_some_iff.mp hend
  obtain ⟨hcrash, hcfm⟩ := Prod.mk.inj hs
  obtain ⟨⟨s', o⟩, hstep, rfl⟩ := Option.map_eq_some_iff.mp hcfm
  have hreach : s.Reachable := ⟨_, _, _, rfl, hrun⟩
  exact ⟨s, s', hreach, hstep, hcrash, confirm_writes hreach hstep (by simp)⟩

end Aic
