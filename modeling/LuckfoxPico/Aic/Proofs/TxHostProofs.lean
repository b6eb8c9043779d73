import LuckfoxPico.Aic.TxHost
import LuckfoxPico.Machine.Proofs.RunsProofs

/-!
# Proofs: the packets that wait for a confirmation

As long as no more than 64 packets have been numbered since, a confirmation is for the packet that
went out with its number; with one more, it is for another packet.
-/

namespace Aic

open Machine

/-- All packets in the order of their numbers, and the numbers that have been confirmed. -/
structure Awaiting where
  pushed : List Nat
  done : List Nat
deriving DecidableEq

/-- The `hostid` of the packet with a number. -/
def hostidOf (n : Nat) : Nat := 0x80000000 + n % 0x80000000

/-- The firmware confirms a packet that is among the last 64 and has not been confirmed. -/
def Awaiting.step (t : Awaiting) : HostEvent → Option (Awaiting × List HostOut)
  | .push hostId =>
    if hostId = 0 then none
    else some ({ t with pushed := t.pushed ++ [hostId] }, [.hostid (hostidOf t.pushed.length)])
  | .cfm status n =>
    if n < t.pushed.length ∧ t.pushed.length ≤ n + sdioTxdescCnt ∧ n ∉ t.done then
      if status = 0 then some (t, [.kept (t.pushed.getD n 0)])
      else some ({ t with done := t.done ++ [n] }, [.confirmed (t.pushed.getD n 0)])
    else none

def Awaiting.start : Awaiting := ⟨[], []⟩

/-- The event as the driver sees it: a confirmation has the `hostid` in it. -/
def HostEvent.seen : HostEvent → HostEvent
  | .push hostId => .push hostId
  | .cfm status n => .cfm status (hostidOf n)

/-- Each of the last 64 packets is at its place until it is confirmed. -/
structure Awaits (s : SdioHostEnv) (t : Awaiting) : Prop where
  idx : s.txdescFreeIdx = t.pushed.length % 0x80000000
  place : ∀ n, n < t.pushed.length → t.pushed.length ≤ n + 64 →
    s.txHostId (n % 64) = if n ∈ t.done then 0 else t.pushed.getD n 0
  nonzero : ∀ hostId ∈ t.pushed, hostId ≠ 0
  done : ∀ n ∈ t.done, n < t.pushed.length

section Steps

variable {s : SdioHostEnv} {t t' : Awaiting} {n status hostId : Nat} {out : List HostOut}

theorem hostidOf_place (n : Nat) : hostidOf n % sdioTxdescCnt = n % 64 := by
  unfold hostidOf sdioTxdescCnt
  omega

theorem awaits_start : Awaits .init .start where
  idx := rfl
  place := fun _ h => absurd h (Nat.not_lt_zero _)
  nonzero := fun _ h => nomatch h
  done := fun _ h => nomatch h

theorem Awaits.ne_zero (h : Awaits s t) (hn : n < t.pushed.length) : t.pushed.getD n 0 ≠ 0 := by
  rw [List.getD_eq_getElem?_getD, List.getElem?_eq_getElem hn]
  exact h.nonzero _ (List.getElem_mem hn)

theorem Awaits.push (h : Awaits s t) (hne : hostId ≠ 0) :
    Awaits (s.txdescPush hostId) { t with pushed := t.pushed ++ [hostId] } := by
  have hidx := h.idx
  have hplace : s.txdescFreeIdx % sdioTxdescCnt = t.pushed.length % 64 := by
    unfold sdioTxdescCnt
    omega
  refine ⟨?_, ?_, ?_, ?_⟩
  · change (if s.txdescFreeIdx + 1 = 0x80000000 then 0 else s.txdescFreeIdx + 1) =
      (t.pushed ++ [hostId]).length % 0x80000000
    rw [List.length_append, List.length_singleton]
    split <;> omega
  · intro n hn hle
    change n < (t.pushed ++ [hostId]).length at hn
    change (t.pushed ++ [hostId]).length ≤ n + 64 at hle
    rw [List.length_append, List.length_singleton] at hn hle
    change Function.update s.txHostId _ hostId (n % 64) =
      if n ∈ t.done then 0 else (t.pushed ++ [hostId]).getD n 0
    rw [hplace]
    by_cases hlast : n = t.pushed.length
    · subst hlast
      have hnew : t.pushed.length ∉ t.done := fun hd => Nat.lt_irrefl _ (h.done _ hd)
      rw [Function.update_self, if_neg hnew]
      simp
    · have hlt : n < t.pushed.length := by omega
      rw [Function.update_of_ne (by omega), h.place n hlt (by omega),
        List.getD_eq_getElem?_getD, List.getD_eq_getElem?_getD, List.getElem?_append_left hlt]
  · intro x hx
    rcases List.mem_append.mp hx with hx | hx
    · exact h.nonzero x hx
    · exact List.mem_singleton.mp hx ▸ hne
  · intro n hn
    have := h.done n hn
    change n < (t.pushed ++ [hostId]).length
    rw [List.length_append]
    omega

theorem Awaits.confirm (h : Awaits s t) (hn : n < t.pushed.length)
    (hle : t.pushed.length ≤ n + 64) :
    Awaits { s with txHostId := Function.update s.txHostId (n % 64) 0 }
      { t with done := t.done ++ [n] } := by
  refine ⟨h.idx, ?_, h.nonzero, ?_⟩
  · intro m hm hmle
    change m < t.pushed.length at hm
    change t.pushed.length ≤ m + 64 at hmle
    change Function.update s.txHostId (n % 64) 0 (m % 64) =
      if m ∈ t.done ++ [n] then 0 else t.pushed.getD m 0
    by_cases hmn : m = n
    · subst hmn
      rw [Function.update_self, if_pos (by simp)]
    · have hmem : m ∈ t.done ++ [n] ↔ m ∈ t.done := by simp [hmn]
      rw [Function.update_of_ne (by omega), h.place m hm hmle]
      simp only [hmem]
  · intro m hm
    rcases List.mem_append.mp hm with hm | hm
    · exact h.done m hm
    · exact List.mem_singleton.mp hm ▸ hn

/-- A step with a packet among the last 64 is a step of the driver, for the same packet. -/
theorem Awaits.step (h : Awaits s t) {e : HostEvent} (ht : t.step e = some (t', out)) :
    ∃ s', s.step e.seen = some (s', out) ∧ Awaits s' t' := by
  cases e with
  | push hostId =>
    simp only [Awaiting.step] at ht
    split at ht
    · cases ht
    · next hne =>
      obtain ⟨rfl, rfl⟩ := Prod.mk.inj (Option.some.inj ht)
      refine ⟨s.txdescPush hostId, ?_, h.push hne⟩
      change (if hostId = 0 then none else _) = _
      rw [if_neg hne, hostidOf, h.idx]
  | cfm status n =>
    simp only [Awaiting.step] at ht
    split at ht
    · next hok =>
      obtain ⟨hn, hle, hnew⟩ := hok
      have hid : s.txHostId (n % 64) = t.pushed.getD n 0 := by
        rw [h.place n hn hle, if_neg hnew]
      have hne := h.ne_zero hn
      change ∃ s', s.txCfmHandler status (hostidOf n) = some (s', out) ∧ Awaits s' t'
      unfold SdioHostEnv.txCfmHandler
      dsimp only
      rw [hostidOf_place, hid, if_neg hne]
      split at ht
      · next hstatus =>
        obtain ⟨rfl, rfl⟩ := Prod.mk.inj (Option.some.inj ht)
        rw [if_pos hstatus]
        refine ⟨s, ?_, h⟩
        rw [Function.update_idem, ← hid, Function.update_eq_self]
      · next hstatus =>
        obtain ⟨rfl, rfl⟩ := Prod.mk.inj (Option.some.inj ht)
        rw [if_neg hstatus]
        exact ⟨_, rfl, h.confirm hn hle⟩
    · cases ht

end Steps

section Runs

variable {s : SdioHostEnv} {t t' : Awaiting} {es : List HostEvent} {out : List HostOut}
  {n status hostId : Nat}

theorem Awaits.run (h : Awaits s t) (ht : run Awaiting.step t es = some (t', out)) :
    ∃ s', run SdioHostEnv.step s (es.map HostEvent.seen) = some (s', out) ∧ Awaits s' t' := by
  induction es generalizing s t out with
  | nil =>
    obtain ⟨rfl, rfl⟩ := Prod.mk.inj (Option.some.inj ht)
    exact ⟨s, rfl, h⟩
  | cons e es ih =>
    obtain ⟨t₁, o₁, o₂, hstep, hrun, rfl⟩ := run_cons_eq_some_iff.mp ht
    obtain ⟨s₁, hs₁, h₁⟩ := h.step hstep
    obtain ⟨s', hs', h'⟩ := ih h₁ hrun
    exact ⟨s', run_cons_eq_some_iff.mpr ⟨s₁, o₁, o₂, hs₁, hs', rfl⟩, h'⟩

/-- If the firmware confirms only packets that are among the last 64 and have not been confirmed,
every confirmation is for the packet that went out with its number, and no null pointer is met. -/
theorem host_ids_kept (h : run Awaiting.step .start es = some (t, out)) :
    ∃ s, run SdioHostEnv.step .init (es.map HostEvent.seen) = some (s, out) := by
  obtain ⟨s, hrun, -⟩ := awaits_start.run h
  exact ⟨s, hrun⟩

theorem host_ids_kept_two : ∃ s,
    run SdioHostEnv.step .init (([.push 11, .push 22, .cfm 1 1, .cfm 0 0, .cfm 1 0] :
        List HostEvent).map HostEvent.seen) =
      some (s, [.hostid 0x80000000, .hostid 0x80000001, .confirmed 22, .kept 11,
        .confirmed 11]) := by
  have h : run Awaiting.step .start [.push 11, .push 22, .cfm 1 1, .cfm 0 0, .cfm 1 0] =
      some (⟨[11, 22], [1, 0]⟩, [.hostid 0x80000000, .hostid 0x80000001, .confirmed 22,
        .kept 11, .confirmed 11]) := rfl
  exact host_ids_kept h

/-- The handler looks at the place only. -/
theorem txCfmHandler_hostidOf (s : SdioHostEnv) (status n : Nat) :
    s.txCfmHandler status (hostidOf (n + 64)) = s.txCfmHandler status (hostidOf n) := by
  unfold SdioHostEnv.txCfmHandler
  rw [hostidOf_place, hostidOf_place, Nat.add_mod_right]

/-- One packet more, and the confirmation of the oldest of the 65 is taken for one of the newest,
which has just gone out. -/
theorem host_id_overwritten (h : run Awaiting.step .start es = some (t, out))
    (hlen : t.pushed.length = n + 64) (hne : hostId ≠ 0) (hstatus : status ≠ 0) :
    ∃ s, run SdioHostEnv.step .init
        (es.map HostEvent.seen ++ [.push hostId, .cfm status (hostidOf n)]) =
      some (s, out ++ [.hostid (hostidOf (n + 64)), .confirmed hostId]) := by
  obtain ⟨s, hrun, haw⟩ := awaits_start.run h
  have hpush : t.step (.push hostId) =
      some ({ t with pushed := t.pushed ++ [hostId] }, [.hostid (hostidOf t.pushed.length)]) :=
    if_neg hne
  obtain ⟨s₁, hs₁, haw₁⟩ := haw.step hpush
  -- the newest packet has the number `n + 64`, which has the same place as `n`
  have hnew : n + 64 ∉ t.done := fun hd => by
    have := haw.done _ hd
    omega
  have hcfm : ({ t with pushed := t.pushed ++ [hostId] } : Awaiting).step (.cfm status (n + 64)) =
      some ({ pushed := t.pushed ++ [hostId], done := t.done ++ [n + 64] },
        [.confirmed hostId]) := by
    unfold Awaiting.step sdioTxdescCnt
    dsimp only
    rw [if_pos ⟨by simp [hlen], by simp [hlen], hnew⟩, if_neg hstatus]
    simp [← hlen]
  obtain ⟨s₂, hs₂, -⟩ := haw₁.step hcfm
  change s₁.txCfmHandler status (hostidOf (n + 64)) = _ at hs₂
  rw [txCfmHandler_hostidOf] at hs₂
  refine ⟨s₂, run_append_eq_some_iff.mpr ⟨s, out, _, hrun, ?_, rfl⟩⟩
  refine run_cons_eq_some_iff.mpr ⟨s₁, _, [.confirmed hostId], hs₁, ?_, by rw [hlen]; rfl⟩
  exact run_cons_eq_some_iff.mpr ⟨s₂, _, [], hs₂, run_nil, rfl⟩

theorem host_id_overwritten_two : ∃ s,
    run SdioHostEnv.step .init
        ((List.replicate 64 (HostEvent.push 11)).map HostEvent.seen ++
          [.push 22, .cfm 1 (hostidOf 0)]) =
      some (s, (List.range 64).map (fun k => HostOut.hostid (hostidOf k)) ++
        [.hostid (hostidOf 64), .confirmed 22]) := by
  have h : run Awaiting.step .start (List.replicate 64 (HostEvent.push 11)) =
      some (⟨List.replicate 64 11, []⟩,
        (List.range 64).map (fun k => HostOut.hostid (hostidOf k))) := by decide +kernel
  exact host_id_overwritten h rfl (by decide) (by decide)

end Runs

end Aic
