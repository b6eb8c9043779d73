import LuckfoxPico.Aic.Reorder
import LuckfoxPico.Seq.Numbered
import LuckfoxPico.Seq.Proofs.WindowProofs

/-!
# Proofs: the receive reordering of the AIC8800 driver

A control block does with sequence numbers modulo 4096 what a reordering window of 64 does with
unbounded serials, as long as no frame is half a circle away from the one that is waited for.
-/

namespace Aic

open Window

/-- A frame with its serial, of which the driver sees the sequence number. -/
abbrev Numbered := Nat × RecvMsdu

variable {c c' : ReordCtrl} {s : State Numbered} {f : RecvMsdu} {k n a b : Nat}
  {l : List Numbered}

/-! ## Sequence numbers and serials -/

theorem snLess_iff_before : snLess a b = true ↔ Circular.Before 2048 a b := by
  simp only [snLess, decide_eq_true_eq, Circular.Before]
  omega

theorem snLess_iff_lt (hlo : b ≤ a + 2048) (hhi : a < b + 2048) :
    snLess (a % 4096) (b % 4096) = true ↔ a < b := by
  have := Circular.before_residues_iff (h := 2048) (a := a) (b := b) (by decide) (by omega)
    (by omega)
  rw [snLess_iff_before]
  simpa using this

theorem snLess_eq (hlo : b ≤ a + 2048) (hhi : a < b + 2048) :
    snLess (a % 4096) (b % 4096) = decide (a < b) := by
  rw [Bool.eq_iff_iff, snLess_iff_lt hlo hhi, decide_eq_true_eq]

theorem seqNum_eq_iff (hlo : b < a + 4096) (hhi : a < b + 4096) : a % 4096 = b % 4096 ↔ a = b := by
  have := Circular.residues_eq_iff (h := 2048) (a := a) (b := b) (by decide) (by omega) (by omega)
  constructor
  · intro heq
    have := this.mp (by omega)
    omega
  · rintro rfl
    rfl

/-- The sequence numbers of the frames are their serials modulo 4096. -/
def Matching (l : List Numbered) : Prop := ∀ p ∈ l, (p.2.seqNum : Nat) = p.1 % 4096

theorem Matching.of_cons {p : Numbered} (h : Matching (p :: l)) : Matching l :=
  fun q hq => h q (by simp [hq])

/-- `reord_rxframe_enqueue` puts a frame in the place of its serial. -/
theorem reordRxframeEnqueue_eq (hl : Matching l) (hf : (f.seqNum : Nat) = k % 4096)
    (hnear : ∀ p ∈ l, k ≤ p.1 + 2048 ∧ p.1 < k + 2048) :
    reordRxframeEnqueue f (l.map Prod.snd) =
      (place Prod.fst (k, f) l).map fun l => l.map Prod.snd := by
  induction l with
  | nil => rfl
  | cons p ps ih =>
    obtain ⟨hlo, hhi⟩ := hnear p (by simp)
    have hp := hl p (by simp)
    have hih := ih hl.of_cons fun q hq => hnear q (by simp [hq])
    have heq : p.2.seqNum = f.seqNum ↔ p.1 = k := by
      rw [Fin.ext_iff, hp, hf]
      exact seqNum_eq_iff (by omega) (by omega)
    rw [List.map_cons, reordRxframeEnqueue, place, hih, hp, hf, snLess_eq hlo hhi]
    by_cases hlt : p.1 < k
    · simp [hlt, Function.comp_def]
    · by_cases hpk : p.1 = k
      · simp [hpk, heq.mpr hpk]
      · simp [hlt, hpk, heq]

/-- The loop of `reord_rxframes_process` advances the serial that is waited for, and tells whether
a frame stays behind. -/
theorem processLoop_eq (hl : Matching l) (hasc : Ascending Prod.fst l)
    (hnear : ∀ p ∈ l, p.1 ≤ n + 2048 ∧ n < p.1 + 2048) :
    processLoop (n % 4096) (l.map Prod.snd) =
      (advance Prod.fst n l % 4096,
        decide (l.dropWhile (fun p => p.1 < advance Prod.fst n l) ≠ [])) := by
  induction l generalizing n with
  | nil => rfl
  | cons p ps ih =>
    obtain ⟨hlo, hhi⟩ := hnear p (by simp)
    obtain ⟨hp, hps⟩ := List.pairwise_cons.mp hasc
    have hseq := hl p (by simp)
    have hrest : ∀ q ∈ ps, q.1 ≤ n + 2048 ∧ n < q.1 + 2048 := fun q hq => hnear q (by simp [hq])
    rw [List.map_cons, processLoop, advance, hseq, snLess_eq hlo hhi]
    by_cases hlt : n < p.1
    · have h1 : ¬ p.1 < n := by omega
      have h2 : ¬ p.1 = n := by omega
      simp [hlt, h1, h2]
    · have hle : p.1 ≤ n := Nat.le_of_not_lt hlt
      by_cases heq : p.1 = n
      · have hih := ih (n := n + 1) hl.of_cons hps fun q hq => by
          have := hp q hq
          have := hrest q hq
          omega
        have hadv : p.1 < advance Prod.fst (n + 1) ps := by
          have : n + 1 ≤ advance Prod.fst (n + 1) ps := le_advance
          omega
        have hmod : (n % 4096 + 1) % 4096 = (n + 1) % 4096 := by omega
        simp only [decide_false, Bool.not_false, if_true, heq, lt_irrefl, if_false, hmod, hih]
        rw [List.dropWhile_cons_of_pos (by simpa [heq] using hadv)]
      · have hlt' : p.1 < n := by omega
        have hne : ¬ n % 4096 = p.1 % 4096 := fun h =>
          heq ((seqNum_eq_iff (by omega) (by omega)).mp h).symm
        have hadv : p.1 < advance Prod.fst n ps := by
          have : n ≤ advance Prod.fst n ps := le_advance
          omega
        simp only [hlt, decide_false, Bool.not_false, if_true, hne, if_false, hlt',
          ih hl.of_cons hps hrest]
        rw [List.dropWhile_cons_of_pos (by simpa using hadv)]

/-- `reord_rxframes_ind` hands on the frames in front of the serial that is waited for. -/
theorem takeWhile_snLess_eq (hl : Matching l) (hne : ∀ p ∈ l, p.1 ≠ n)
    (hnear : ∀ p ∈ l, p.1 ≤ n + 2048 ∧ n < p.1 + 2048) :
    (l.map Prod.snd).takeWhile (fun p => !snLess (n % 4096) p.seqNum) =
        (l.takeWhile fun p => p.1 < n).map Prod.snd ∧
      (l.map Prod.snd).dropWhile (fun p => !snLess (n % 4096) p.seqNum) =
        (l.dropWhile fun p => p.1 < n).map Prod.snd := by
  induction l with
  | nil => simp
  | cons p ps ih =>
    obtain ⟨hlo, hhi⟩ := hnear p (by simp)
    have hpn := hne p (by simp)
    have hih := ih hl.of_cons (fun q hq => hne q (by simp [hq]))
      fun q hq => hnear q (by simp [hq])
    have htest : (!snLess (n % 4096) p.2.seqNum) = decide (p.1 < n) := by
      rw [hl p (by simp), snLess_eq hlo hhi, ← decide_not, decide_eq_decide]
      omega
    rw [List.map_cons, List.takeWhile_cons, List.dropWhile_cons, List.takeWhile_cons,
      List.dropWhile_cons, htest]
    by_cases hlt : p.1 < n
    · simp only [hlt, decide_true, if_true, List.map_cons, hih.1, hih.2, and_self]
    · simp [hlt]

/-! ## One control block -/

/-- A control block keeps track of a window: it waits for the same serial and holds the same
frames. -/
structure Tracks (c : ReordCtrl) (s : State Numbered) : Prop where
  wsize : c.wsizeB = reorderWinsize
  list : c.reordList = s.held.map Prod.snd
  matching : Matching s.held
  ind : c.indSn = (s.next.map (· % 4096)).getD 0xFFFF
  inv : Window.Inv Prod.fst 64 s

/-- Held frames are watched over: the timer or its work will come. -/
def Watched (c : ReordCtrl) : Prop :=
  c.reordList ≠ [] → c.reordTimer = true ∨ c.reordTimerWork = true

/-- What the driver does with a message of the window: late frames that look like RTP packets and
frames that are there already are freed. -/
def fateOf : Window.Fate Numbered → Fate
  | .passed p => reordSingleFrameInd p.2
  | .late p => if p.2.pkt.byte 42 = 0x80 then .freed p.2.pkt else reordSingleFrameInd p.2
  | .double p => .freed p.2.pkt

/-- `k` is less than half a circle away from the serial that is waited for. -/
def Near (s : State Numbered) (k : Nat) : Prop :=
  ∀ n, s.next = some n → n ≤ k + 2048 ∧ k < n + 2048

theorem Tracks.needCheck (h : Tracks c s) (hf : (f.seqNum : Nat) = k % 4096) (hk : Near s k) :
    reordNeedCheck c f.seqNum =
      (decide (k < s.next.getD k), { c with indSn :=
        (if k < s.next.getD k then s.next.getD k else turn 64 (s.next.getD k) k) % 4096 }) := by
  obtain ⟨hwsize, -, -, hind, -⟩ := h
  obtain ⟨enable, indSn, wsizeB, list, timer, work⟩ := c
  obtain rfl : wsizeB = 64 := hwsize
  cases hnext : s.next with
  | none =>
    obtain rfl : indSn = 0xFFFF := by simpa [hnext] using hind
    have hself : snLess (k % 4096) (k % 4096) = false := by
      rw [snLess_eq (by omega) (by omega)]
      simp
    simp [reordNeedCheck, hf, hself, turn]
  | some n =>
    obtain ⟨hlo, hhi⟩ := hk n hnext
    obtain rfl : indSn = n % 4096 := by simpa [hnext] using hind
    have hset : n % 4096 ≠ 0xFFFF := by omega
    have hwend : (n % 4096 + 64 - 1) % 0x1000 = (n + 63) % 4096 := by omega
    simp only [reordNeedCheck, hset, if_false, hwend, hf, Option.getD_some, snLess_eq hlo hhi]
    by_cases hlt : k < n
    · simp only [hlt, decide_true, if_true]
    · simp only [hlt, decide_false, Bool.false_eq_true, if_false]
      by_cases heq : k = n
      · have hmod : (n % 4096 + 1) % 4096 = (n + 1) % 4096 := by omega
        simp [heq, turn, hmod]
      · have hne : ¬ k % 4096 = n % 4096 := fun h =>
          heq ((seqNum_eq_iff (by omega) (by omega)).mp h)
        simp only [hne, if_false, turn, heq,
          snLess_eq (a := n + 63) (b := k) (by omega) (by omega), decide_eq_true_eq]
        by_cases hfar : n + 63 < k
        · have hfar' : n + 64 ≤ k := hfar
          simp only [hfar, hfar', if_true]
          split <;> congr 2 <;> omega
        · have hfar' : ¬ n + 64 ≤ k := hfar
          simp only [hfar, hfar', if_false]

/-- `reord_rxframes_process` on an ascending list settles the serial that is waited for. -/
theorem process_eq (hn : c.indSn = n % 4096) (hlist : c.reordList = l.map Prod.snd)
    (hl : Matching l) (hasc : Ascending Prod.fst l)
    (hnear : ∀ p ∈ l, p.1 ≤ n + 2048 ∧ n < p.1 + 2048) :
    reordRxframesProcess c false =
      ({ c with indSn := advance Prod.fst n l % 4096 },
        decide ((Window.settle Prod.fst n l).1.held ≠ [])) := by
  cases l with
  | nil =>
    obtain ⟨enable, indSn, wsizeB, list, timer, work⟩ := c
    obtain rfl : indSn = n % 4096 := hn
    obtain rfl : list = [] := hlist
    rfl
  | cons p ps =>
    simp only [reordRxframesProcess, hlist, List.map_cons, Bool.false_eq_true, if_false]
    rw [hn, ← List.map_cons, processLoop_eq hl hasc hnear]
    rfl

/-- `reord_rxframes_ind` after that hands on what the window passes. -/
theorem ind_eq (hn : c.indSn = advance Prod.fst n l % 4096)
    (hlist : c.reordList = l.map Prod.snd) (hl : Matching l) (hasc : Ascending Prod.fst l)
    (hnear : ∀ p ∈ l, p.1 ≤ n + 2048 ∧ advance Prod.fst n l < p.1 + 2048) :
    reordRxframesInd c = ({ c with reordList := (Window.settle Prod.fst n l).1.held.map Prod.snd },
      (Window.settle Prod.fst n l).2.map fateOf) := by
  have hle : n ≤ advance Prod.fst n l := le_advance
  obtain ⟨htake, hdrop⟩ := takeWhile_snLess_eq (n := advance Prod.fst n l) hl
    (hasc.ne_advance (n := n)) fun p hp => by have := hnear p hp; omega
  simp only [reordRxframesInd, hn, hlist, htake, hdrop, Window.settle, List.map_map]
  rfl

/-- What is left after a settled list is tracked again, and watched over if the timer is set for
what stays. -/
theorem Tracks.settle (hwsize : c.wsizeB = reorderWinsize) (hn : c.indSn = n % 4096)
    (hlist : c.reordList = l.map Prod.snd) (hl : Matching l) (hasc : Ascending Prod.fst l)
    (hlt : ∀ p ∈ l, p.1 < n + 64 ∧ n + 64 < p.1 + 2048) {t : Bool}
    (ht : (reordRxframesProcess c false).2 = true → t = true) {r : ReordCtrl × List Fate}
    (hr : reordRxframesInd { (reordRxframesProcess c false).1 with reordTimer := t } = r) :
    Tracks r.1 (Window.settle Prod.fst n l).1 ∧
      r.2 = (Window.settle Prod.fst n l).2.map fateOf ∧ r.1.enable = c.enable ∧ Watched r.1 := by
  have hadv : advance Prod.fst n l ≤ n + 64 := advance_le fun p hp => (hlt p hp).1
  have hproc := process_eq hn hlist hl hasc fun p hp => by have := hlt p hp; omega
  rw [hproc] at hr ht
  have hind := ind_eq (c := { c with indSn := advance Prod.fst n l % 4096, reordTimer := t }) rfl
    hlist hl hasc fun p hp => by have := hlt p hp; omega
  obtain rfl := hind.symm.trans hr
  refine ⟨⟨hwsize, rfl, fun p hp => hl p ((List.dropWhile_sublist _).subset hp), rfl,
    settle_inv hasc fun p hp => (hlt p hp).1⟩, rfl, rfl, fun hne => Or.inl (ht ?_)⟩
  have : (Window.settle Prod.fst n l).1.held ≠ [] := fun hnil => hne (by simp [hnil])
  simpa using this

/-- The frames in front of a window after an arrival are near enough to be told apart. -/
theorem Tracks.place_near (h : Tracks c s) (hk : Near s k) (hlt : ¬ k < s.next.getD k)
    (hl : place Prod.fst (k, f) s.held = some l) :
    ∀ p ∈ l, p.1 < turn 64 (s.next.getD k) k + 64 ∧
      turn 64 (s.next.getD k) k + 64 < p.1 + 2048 := by
  intro p hp
  refine ⟨(h.inv.place_lt (m := (k, f)) (Nat.le_of_not_lt hlt) hl p hp).2, ?_⟩
  have hturn : turn 64 (s.next.getD k) k ≤ s.next.getD k + 1 ∨
      turn 64 (s.next.getD k) k + 64 = k + 1 := by
    rw [turn]
    split
    · exact Or.inl le_rfl
    · split
      · exact Or.inr (by omega)
      · exact Or.inl (Nat.le_succ _)
  rcases List.mem_cons.mp ((place_perm hl).mem_iff.mp hp) with rfl | hp
  · have hle : s.next.getD k ≤ k := Nat.le_of_not_lt hlt
    simp only
    omega
  · obtain ⟨n, hn, hgt, -⟩ := h.inv.inside p hp
    have hnear := hk n hn
    simp only [hn, Option.getD_some] at hturn ⊢
    omega

/-- A frame that arrives: the control block does what the window does with the serial. -/
theorem Tracks.receive (h : Tracks c s) (hen : c.enable = true) (hw : Watched c)
    (hf : (f.seqNum : Nat) = k % 4096) (hk : Near s k) :
    Tracks (reordReceive c f).1 (arrive Prod.fst 64 s (k, f)).1 ∧
      (reordReceive c f).2 = (arrive Prod.fst 64 s (k, f)).2.map fateOf ∧
      (reordReceive c f).1.enable = true ∧ Watched (reordReceive c f).1 := by
  have hcheck := h.needCheck hf hk
  rw [reordReceive, if_neg (by simp [hen]), hcheck, arrive]
  by_cases hlt : k < s.next.getD k
  · obtain ⟨n, hn⟩ : ∃ n, s.next = some n := by
      cases hnext : s.next with
      | none => simp [hnext] at hlt
      | some n => exact ⟨n, rfl⟩
    have hlt' : k < n := by simpa [hn] using hlt
    have hind : c.indSn = n % 4096 := by simpa [hn] using h.ind
    have hself : { c with indSn := n % 4096 } = c := by rw [← hind]
    -- a late frame is not the one that is waited for, so one that looks like RTP is freed
    have hne : ¬ (f.seqNum : Nat) = c.indSn := by
      have := hk n hn
      rw [hf, hind, seqNum_eq_iff (by omega) (by omega)]
      omega
    simp only [hn, Option.getD_some, hlt', decide_true, if_true, hself, hne, if_false]
    by_cases hrtp : f.pkt.byte 42 = 0x80
    · simp only [hrtp, if_true]
      exact ⟨h, by simp [fateOf, hrtp], hen, hw⟩
    · simp only [hrtp, if_false]
      exact ⟨h, by simp [fateOf, hrtp], hen, hw⟩
  · have hplace := reordRxframeEnqueue_eq h.matching hf fun p hp => by
      obtain ⟨n, hn, hgt, hlt'⟩ := h.inv.inside p hp
      have := hk n hn
      have : ¬ k < n := by simpa [hn] using hlt
      omega
    rw [← h.list] at hplace
    simp only [hlt, decide_false, if_false, hplace]
    cases hl : place Prod.fst (k, f) s.held with
    | none =>
      have hturn : some (turn 64 (s.next.getD k) k) = s.next :=
        h.inv.turn_of_double (m := (k, f)) hl
      have hind : c.indSn = turn 64 (s.next.getD k) k % 4096 :=
        h.ind.trans (congrArg (fun o : Option Nat => (o.map (· % 4096)).getD 0xFFFF) hturn.symm)
      simp only [Option.map_none, hturn, ← hind]
      exact ⟨h, rfl, hen, hw⟩
    | some l =>
      have hmatch : Matching l := fun p hp => by
        rcases List.mem_cons.mp ((place_perm hl).mem_iff.mp hp) with rfl | hp
        · exact hf
        · exact h.matching p hp
      have := Tracks.settle (n := turn 64 (s.next.getD k) k) (l := l)
        (c := { c with indSn := turn 64 (s.next.getD k) k % 4096, reordList := l.map Prod.snd })
        h.wsize rfl rfl hmatch (h.inv.ascending.place hl) (h.place_near hk hlt hl) id rfl
      rw [← hen]
      exact this

/-- A forced run begins at the first frame. -/
theorem process_forced {fs : List RecvMsdu} (hlist : c.reordList = f :: fs) :
    reordRxframesProcess c true = reordRxframesProcess { c with indSn := f.seqNum } false := by
  simp [reordRxframesProcess, hlist]

theorem process_timer {forced : Bool} :
    (reordRxframesProcess c forced).1.reordTimer = c.reordTimer := by
  rw [reordRxframesProcess]
  cases c.reordList with
  | nil => rfl
  | cons p ps => cases forced <;> rfl

/-- The worker sets the timer again for what stays, and leaves one that runs alone. -/
theorem reordTimeoutWorker_eq {fs : List RecvMsdu} (hlist : c.reordList = f :: fs) :
    reordTimeoutWorker c =
      let r := reordRxframesProcess { c with reordTimerWork := false, indSn := f.seqNum } false
      reordRxframesInd { r.1 with reordTimer := c.reordTimer || r.2 } := by
  rw [reordTimeoutWorker, process_forced (c := { c with reordTimerWork := false }) hlist]
  have htimer :
      (reordRxframesProcess { c with reordTimerWork := false, indSn := f.seqNum } false).1.reordTimer =
      c.reordTimer := process_timer
  cases hr : reordRxframesProcess { c with reordTimerWork := false, indSn := f.seqNum } false with
  | mk c' inBuf =>
    rw [hr] at htimer
    simp only [← htimer]
    cases inBuf with
    | false => simp only [Bool.false_eq_true, if_false, Bool.or_false]
    | true => simp only [if_true, Bool.or_true]

/-- The wait is over: the control block gives up what is missing in front of its first frame. -/
theorem Tracks.timeout (h : Tracks c s) :
    Tracks (reordTimeoutWorker c).1 (expire Prod.fst s).1 ∧
      (reordTimeoutWorker c).2 = (expire Prod.fst s).2.map fateOf ∧
      (reordTimeoutWorker c).1.enable = c.enable ∧ Watched (reordTimeoutWorker c).1 := by
  rw [expire]
  cases hheld : s.held with
  | nil =>
    have hlist : c.reordList = [] := by simp [h.list, hheld]
    simp only [reordTimeoutWorker, reordRxframesProcess, reordRxframesInd, hlist]
    exact ⟨⟨h.wsize, by simp [hheld], h.matching, h.ind, h.inv⟩, rfl, rfl,
      fun hne => absurd rfl hne⟩
  | cons p ps =>
    obtain ⟨n, hn, hgt, hlt⟩ := h.inv.inside p (by simp [hheld])
    have hasc : Ascending Prod.fst (p :: ps) := hheld ▸ h.inv.ascending
    have hbound : ∀ q ∈ p :: ps, q.1 < p.1 + 64 ∧ p.1 + 64 < q.1 + 2048 := fun q hq => by
      have hq' := h.inv.lt_of_next hn q (by rw [hheld]; exact hq)
      omega
    have hlist : c.reordList = (p :: ps).map Prod.snd := by rw [h.list, hheld]
    rw [reordTimeoutWorker_eq hlist]
    exact Tracks.settle (c := { c with reordTimerWork := false, indSn := p.2.seqNum }) h.wsize
      (h.matching p (by simp [hheld])) hlist (hheld ▸ h.matching) hasc hbound
      (fun hin => by rw [hin, Bool.or_true]) rfl

end Aic
