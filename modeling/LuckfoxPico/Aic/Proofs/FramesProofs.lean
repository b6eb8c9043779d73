import Mathlib.Data.List.Basic
import LuckfoxPico.Aic.Frames
import LuckfoxPico.Parse.Proofs.ChunksProofs

/-!
# Proofs: buffers with several frames

An aggregate that was put together from subframes comes apart into their Ethernet frames, and a
buffer of the firmware into its packets. The loop over an aggregate ends exactly if it does not come
to a subframe that is followed by less than its padding: such a subframe is put out for ever.
-/

namespace Aic

open Machine Chunks

/-! ## Lengths in front of data -/

theorem be16At_be16 {l r : List UInt8} {n : Nat} (hn : n < 65536) :
    be16At (l ++ (be16 n ++ r)) l.length = n := by
  have h0 : (l ++ (be16 n ++ r)).getD l.length 0 = UInt8.ofNat (n / 256) := by
    simp [be16, List.getD_eq_getElem?_getD]
  have h1 : (l ++ (be16 n ++ r)).getD (l.length + 1) 0 = UInt8.ofNat (n % 256) := by
    simp [be16, List.getD_eq_getElem?_getD]
  rw [be16At, h0, h1, UInt8.toNat_ofNat', UInt8.toNat_ofNat']
  omega

theorem le16At_le16 {r : List UInt8} {n : Nat} (hn : n < 65536) : le16At (le16 n ++ r) 0 = n := by
  have h0 : (le16 n ++ r).getD 0 0 = UInt8.ofNat (n % 256) := rfl
  have h1 : (le16 n ++ r).getD 1 0 = UInt8.ofNat (n / 256) := rfl
  rw [le16At, h0, h1, UInt8.toNat_ofNat', UInt8.toNat_ofNat']
  omega

theorem roundup4_eq {n k : Nat} (hk : k < 4) (h : (n + k) % 4 = 0) : roundup4 n = n + k := by
  rw [roundup4]
  omega

/-! ## Aggregates -/

theorem amsduLoop_halt (data : List UInt8) : amsduLoop.halt data =
    if ¬ data.length > 16 then some .freed
    else if data.length < sublen data + 14 then some .freed
    else if sublen data < 6 then some .overflow
    else none := rfl

namespace Msdu

variable (m : Msdu) {tail : List UInt8}

/-- The subframe with its padding. -/
def padded : List UInt8 := m.bytes ++ m.pad

theorem length_bytes : m.bytes.length = 20 + m.body.length := by
  simp [bytes, be16, m.da_length, m.sa_length, m.llc_length]
  omega

theorem sublen_eq : sublen (m.bytes ++ tail) = 6 + m.body.length := by
  have hsplit : m.bytes ++ tail =
      (m.da ++ m.sa) ++ (be16 (6 + m.body.length) ++ (m.llc ++ (m.body ++ tail))) := by
    simp [bytes]
  have hlen : (m.da ++ m.sa).length = 12 := by simp [m.da_length, m.sa_length]
  have := m.body_length
  rw [sublen, hsplit, ← hlen, be16At_be16 (by omega)]

/-- The frame of a subframe is read back from the beginning of a buffer. -/
theorem subSkb_eq : subSkb (m.bytes ++ tail) = m.frame := by
  have hda : (m.bytes ++ tail).take 6 = m.da := by
    simp [bytes, m.da_length]
  have hsa : ((m.bytes ++ tail).drop 6).take 6 = m.sa := by
    simp [bytes, m.da_length, m.sa_length]
  have hbody : ((m.bytes ++ tail).drop 20).take m.body.length = m.body := by
    have hsplit : m.bytes ++ tail =
        (m.da ++ m.sa ++ be16 (6 + m.body.length) ++ m.llc) ++ (m.body ++ tail) := by
      simp [bytes]
    rw [hsplit, List.drop_left' (by simp [be16, m.da_length, m.sa_length, m.llc_length]),
      List.take_left' rfl]
  rw [subSkb, hda, hsa, sublen_eq, Nat.add_sub_cancel_left, hbody, frame]

theorem halt_eq : amsduLoop.halt (m.bytes ++ tail) = none := by
  have hlen := m.length_bytes
  have hsub : sublen (m.bytes ++ tail) = 6 + m.body.length := m.sublen_eq
  have h16 : (m.bytes ++ tail).length > 16 := by rw [List.length_append]; omega
  have h14 : ¬ (m.bytes ++ tail).length < sublen (m.bytes ++ tail) + 14 := by
    rw [hsub, List.length_append]; omega
  have h6 : ¬ sublen (m.bytes ++ tail) < 6 := by omega
  rw [amsduLoop_halt, if_neg (not_not.mpr h16), if_neg h14, if_neg h6]

/-- A padded subframe is read back and removed, whatever follows. -/
theorem padded_read :
    amsduLoop.halt (m.padded ++ tail) = none ∧
      amsduLoop.size (m.padded ++ tail) = m.padded.length ∧
      amsduLoop.emit (m.padded ++ tail) = m.frame := by
  have hassoc : m.padded ++ tail = m.bytes ++ (m.pad ++ tail) := by simp [padded]
  rw [hassoc]
  refine ⟨m.halt_eq, ?_, m.subSkb_eq⟩
  have hlen := m.length_bytes
  have hpad := m.pad_length
  have haligned := m.aligned
  have hbody := m.body_length
  have hround : roundup4 (6 + m.body.length + 14) = 20 + m.body.length + m.pad.length := by
    rw [roundup4_eq hpad (by omega)]
    omega
  show lenAlligned _ = _
  rw [lenAlligned, m.sublen_eq, hround, padded, List.length_append, List.length_append,
    List.length_append, hlen]
  split <;> omega

/-- The last subframe is read back without padding. -/
theorem last_read :
    amsduLoop.halt (m.bytes ++ []) = none ∧
      amsduLoop.size (m.bytes ++ []) = m.bytes.length ∧
      amsduLoop.emit (m.bytes ++ []) = m.frame := by
  refine ⟨m.halt_eq, ?_, m.subSkb_eq⟩
  have hlen := m.length_bytes
  have hbody := m.body_length
  show lenAlligned _ = _
  rw [lenAlligned, m.sublen_eq, List.append_nil, hlen, if_neg (by omega)]
  omega

end Msdu

/-- An aggregate of padded subframes and a last one without padding comes apart into their Ethernet
frames, and the loop ends. -/
theorem amsdu_roundtrip (ms : List Msdu) (last : Msdu) :
    Reads amsduLoop (ms.flatMap Msdu.padded ++ last.bytes) .freed
      (ms.map Msdu.frame ++ [last.frame]) := by
  obtain ⟨hhalt, hsize, hemit⟩ := last.last_read
  refine (returns_flatMap fun m _ tail => m.padded_read).mpr ?_
  rw [← List.append_nil last.bytes, returns_chunk hhalt hsize, hemit]
  exact returns_halt rfl

/-- A subframe with an ARP header of two bytes, and a padding of two bytes. -/
def sampleMsdu : Msdu where
  da := [2, 0, 0, 0, 0, 1]
  sa := [2, 0, 0, 0, 0, 2]
  llc := [0xAA, 0xAA, 3, 0, 0, 0]
  body := [8, 6]
  pad := [0, 0]
  da_length := rfl
  sa_length := rfl
  llc_length := rfl
  body_length := by decide
  pad_length := by decide
  aligned := by decide

/-- An aggregate of two subframes. -/
theorem amsdu_roundtrip_two :
    Reads amsduLoop
      ([2, 0, 0, 0, 0, 1, 2, 0, 0, 0, 0, 2, 0, 8, 0xAA, 0xAA, 3, 0, 0, 0, 8, 6, 0, 0] ++
        [2, 0, 0, 0, 0, 1, 2, 0, 0, 0, 0, 2, 0, 8, 0xAA, 0xAA, 3, 0, 0, 0, 8, 6]) .freed
      [[2, 0, 0, 0, 0, 1, 2, 0, 0, 0, 0, 2, 8, 6], [2, 0, 0, 0, 0, 1, 2, 0, 0, 0, 0, 2, 8, 6]] :=
  amsdu_roundtrip [sampleMsdu] sampleMsdu

/-- A whole padded subframe. -/
def WholeSubframe (c : List UInt8) : Prop :=
  6 ≤ sublen c ∧ c.length = roundup4 (sublen c + 14)

/-- A subframe that is followed by something, but by less than its padding. -/
def ShortPadding (data : List UInt8) : Prop :=
  16 < data.length ∧ 6 ≤ sublen data ∧ sublen data + 14 < data.length ∧
    data.length < roundup4 (sublen data + 14)

theorem sublen_append {c rest : List UInt8} (hc : 14 ≤ c.length) :
    sublen (c ++ rest) = sublen c := by
  simp [sublen, be16At, List.getD_eq_getElem?_getD,
    List.getElem?_append_left (show 12 < c.length by omega),
    List.getElem?_append_left (show 13 < c.length by omega)]

theorem halt_eq_none_iff {data : List UInt8} : amsduLoop.halt data = none ↔
    16 < data.length ∧ sublen data + 14 ≤ data.length ∧ 6 ≤ sublen data := by
  rw [amsduLoop_halt]
  by_cases h16 : data.length > 16
  · by_cases h14 : data.length < sublen data + 14
    · simp only [h16, not_true_eq_false, if_false, h14, if_true, reduceCtorEq, false_iff]
      omega
    · by_cases h6 : sublen data < 6
      · simp only [h16, not_true_eq_false, if_false, h14, h6, if_true, reduceCtorEq, false_iff]
        omega
      · refine ⟨fun _ => ⟨h16, by omega, by omega⟩, fun _ => ?_⟩
        simp only [h16, not_true_eq_false, if_false, h14, h6]
  · simp only [h16, not_false_eq_true, if_true, reduceCtorEq, false_iff]
    omega

theorem WholeSubframe.read {c rest : List UInt8} (h : WholeSubframe c)
    (hlen : (c ++ rest).length ≤ 65532) : amsduLoop.halt (c ++ rest) = none ∧
      amsduLoop.size (c ++ rest) = c.length := by
  obtain ⟨hsub, hround⟩ := h
  have hround' : roundup4 (sublen c + 14) = (sublen c + 14 + 3) / 4 * 4 := rfl
  have happ : sublen (c ++ rest) = sublen c := sublen_append (by omega)
  rw [List.length_append] at hlen
  refine ⟨halt_eq_none_iff.mpr ?_, ?_⟩
  · rw [happ, List.length_append]
    omega
  · show lenAlligned _ = _
    rw [lenAlligned, happ, List.length_append]
    split <;> omega

theorem shortPadding_iff {data : List UInt8} (hlen : data.length ≤ 65532) :
    ShortPadding data ↔ amsduLoop.halt data = none ∧
      pull (amsduLoop.size data) data = data := by
  rw [halt_eq_none_iff, ShortPadding]
  have hround : roundup4 (sublen data + 14) = (sublen data + 14 + 3) / 4 * 4 := rfl
  have hsize : amsduLoop.size data =
      (if data.length > sublen data + 14 then roundup4 (sublen data + 14)
        else sublen data + 14) % 65536 := rfl
  rw [pull_eq_self_iff, hsize, ← List.length_eq_zero_iff]
  split <;> omega

/-- A loop that goes on behind its chunks has removed whole subframes. -/
theorem wholeSubframe_of_split {cs : List (List UInt8)} {rest data : List UInt8}
    (hs : Split amsduLoop cs rest data) (hlen : data.length ≤ 65532) (hrest : 0 < rest.length) :
    data = cs.flatten ++ rest ∧ ∀ c ∈ cs, WholeSubframe c := by
  induction hs with
  | nil rest => simp
  | @cons c data rest cs hhalt hsize hs ih =>
    have hcat : (c ++ data).length = c.length + data.length := List.length_append
    obtain ⟨hdata, hcs⟩ := ih (by omega) hrest
    refine ⟨by rw [List.flatten_cons, List.append_assoc, ← hdata], fun d hd => ?_⟩
    rcases List.mem_cons.mp hd with rfl | hd
    · obtain ⟨h16, h14, h6⟩ := halt_eq_none_iff.mp hhalt
      have hpos : 0 < data.length := by
        rw [hdata, List.length_append]
        omega
      have hround : roundup4 (sublen (d ++ data) + 14) =
        (sublen (d ++ data) + 14 + 3) / 4 * 4 := rfl
      have hsize' : (if (d ++ data).length > sublen (d ++ data) + 14
          then roundup4 (sublen (d ++ data) + 14)
          else sublen (d ++ data) + 14) % 65536 = d.length := hsize
      -- the subframe is not the last one, so it has been removed with its padding
      have hwhole : d.length = roundup4 (sublen (d ++ data) + 14) := by
        split at hsize' <;> omega
      have happ : sublen (d ++ data) = sublen d := sublen_append (by omega)
      exact ⟨happ ▸ h6, happ ▸ hwhole⟩
    · exact hcs d hd

theorem split_of_wholeSubframe {cs : List (List UInt8)} {rest : List UInt8}
    (hcs : ∀ c ∈ cs, WholeSubframe c) (hlen : (cs.flatten ++ rest).length ≤ 65532) :
    Split amsduLoop cs rest (cs.flatten ++ rest) := by
  induction cs with
  | nil => exact .nil rest
  | cons c cs ih =>
    rw [List.flatten_cons, List.append_assoc] at hlen ⊢
    obtain ⟨hhalt, hsize⟩ := (hcs c (by simp)).read hlen
    refine .cons hhalt hsize (ih (fun d hd => hcs d (by simp [hd])) ?_)
    rw [List.length_append] at hlen
    omega

/-- The loop over an aggregate from the air ends exactly if the aggregate does not consist of whole
padded subframes and one that is followed by less than its padding. -/
theorem amsdu_ends_iff {data : List UInt8} (hlen : data.length ≤ 65532) :
    (∃ h subs, Reads amsduLoop data h subs) ↔
      ¬ ∃ (cs : List (List UInt8)) (tail : List UInt8), data = cs.flatten ++ tail ∧
        (∀ c ∈ cs, WholeSubframe c) ∧ ShortPadding tail := by
  rw [exists_reads_iff, not_iff_not]
  constructor
  · rintro ⟨cs, rest, hs, hstuck⟩
    have hrest : 0 < rest.length := by
      have := (halt_eq_none_iff.mp hstuck.1).1
      omega
    obtain ⟨rfl, hcs⟩ := wholeSubframe_of_split hs hlen hrest
    rw [List.length_append] at hlen
    exact ⟨cs, rest, rfl, hcs, (shortPadding_iff (by omega)).mpr hstuck⟩
  · rintro ⟨cs, tail, rfl, hcs, htail⟩
    have htlen : tail.length ≤ 65532 := by
      rw [List.length_append] at hlen
      omega
    exact ⟨cs, tail, split_of_wholeSubframe hcs hlen, (shortPadding_iff htlen).mp htail⟩

/-- One subframe with an empty payload, and one byte instead of the two of its padding. -/
theorem amsdu_ends_iff_short :
    ¬ ∃ h subs, Reads amsduLoop
      ([1, 2, 3, 4, 5, 6, 7, 8, 9, 10, 11, 12, 0, 8, 0xAA, 0xAA, 3, 0, 0, 0, 8, 0] ++ [0]) h subs :=
  fun hends => (amsdu_ends_iff (by decide)).mp hends
    ⟨[], _, rfl, by simp, by decide, by decide, by decide, by decide⟩

/-! ## Buffers from SDIO -/

theorem rxframesLoop_halt (busUp : Bool) (room data : List UInt8) :
    (rxframesLoop busUp room).halt data =
      if data.length = 0 ∨ pktLen room data = 0 then some .done else none := by
  simp [rxframesLoop, rxframesReader]

namespace SdioPkt

variable (p : SdioPkt) {tail room : List UInt8} {busUp : Bool}

/-- The packet with its padding. -/
def padded : List UInt8 := p.bytes ++ p.pad

theorem length_bytes :
    p.bytes.length = (if isDataType p.type then 60 else 4) + p.payload.length := by
  simp only [bytes, le16, List.length_append, List.length_cons, List.length_nil, p.header_length]
  split <;> omega

theorem pktLen_eq : pktLen room (p.bytes ++ tail) = p.payload.length := by
  have hsplit : p.bytes ++ tail ++ room =
      le16 p.payload.length ++ (p.type :: p.header ++ p.payload ++ tail ++ room) := by
    simp [bytes]
  have := p.payload_length
  rw [pktLen, hsplit, le16At_le16 (by omega)]

theorem pktType_eq : pktType room (p.bytes ++ tail) = p.type := rfl

theorem aggrLen_eq : aggrLen room (p.bytes ++ tail) =
    (if isDataType p.type then 60 else 0) + p.payload.length := by
  have := p.payload_length
  rw [aggrLen, pktType_eq, pktLen_eq]
  split
  next => simp only [rxHwhrdLen]; omega
  next => omega

theorem adjustLen_eq : adjustLen room (p.bytes ++ tail) =
    (if isDataType p.type then 60 else 0) + p.payload.length + p.pad.length := by
  have hlen := p.payload_length
  have hpad := p.pad_length
  have haligned := p.aligned
  have hround : roundup4 ((if isDataType p.type then 60 else 0) + p.payload.length) =
      (if isDataType p.type then 60 else 0) + p.payload.length + p.pad.length :=
    roundup4_eq hpad (by split <;> omega)
  rw [adjustLen, aggrLen_eq, hround]
  split <;> split <;> omega

/-- A packet is read back and removed with its padding, whatever follows. -/
theorem padded_read :
    (rxframesLoop busUp room).halt (p.padded ++ tail) = none ∧
      (rxframesLoop busUp room).size (p.padded ++ tail) = p.padded.length ∧
      (rxframesLoop busUp room).emit (p.padded ++ tail) = p.item busUp := by
  have hassoc : p.padded ++ tail = p.bytes ++ (p.pad ++ tail) := by simp [padded]
  have hlen := p.length_bytes
  have hpos := p.payload_pos
  rw [hassoc]
  refine ⟨?_, ?_, ?_⟩
  · have h0 : ¬ (p.bytes ++ (p.pad ++ tail)).length = 0 := by
      rw [List.length_append]
      omega
    have h1 : ¬ p.payload.length = 0 := by omega
    rw [rxframesLoop_halt, pktLen_eq, if_neg (by simp only [h0, h1, or_self, not_false_eq_true])]
  · simp only [rxframesLoop, rxframesReader, pktType_eq, adjustLen_eq, padded, List.length_append,
      hlen]
    split <;> omega
  · simp only [rxframesLoop, rxframesReader, pktType_eq, aggrLen_eq, item, if_true]
    split
    next hdata =>
      rw [List.append_assoc, List.take_left' (by rw [hlen, if_pos hdata])]
    next hcfg =>
      have hheader := p.header_length
      rw [if_neg hcfg] at hheader
      obtain ⟨b, hb⟩ := List.length_eq_one_iff.mp hheader
      rw [List.append_assoc, List.take_left' (by rw [hlen, if_neg hcfg]; omega)]
      simp [bytes, le16, hb]

end SdioPkt

/-- A buffer of packets, behind which there is nothing or a length of zero, comes apart into the
packets: each is handed to its handler once, in order, and the loop ends. -/
theorem rxframes_roundtrip (busUp : Bool) (room : List UInt8) (pkts : List SdioPkt)
    {tail : List UInt8} (htail : tail = [] ∨ pktLen room tail = 0) :
    Reads (rxframesLoop busUp room) (pkts.flatMap SdioPkt.padded ++ tail) .done
      (pkts.map (SdioPkt.item busUp)) := by
  refine (returns_flatMap fun p _ tail => p.padded_read).mpr (returns_halt ?_)
  have hhalt : tail.length = 0 ∨ pktLen room tail = 0 :=
    htail.imp_left fun h => by rw [h]; rfl
  rw [rxframesLoop_halt, if_pos hhalt]

/-- A data frame of five bytes. -/
def sampleData : SdioPkt where
  type := 0
  header := List.replicate 57 0
  payload := [9, 8, 7, 6, 5]
  pad := [0, 0, 0]
  header_length := by decide
  payload_pos := by decide
  payload_length := by decide
  pad_length := by decide
  aligned := by decide

/-- A confirmation of eight bytes. -/
def sampleCfm : SdioPkt where
  type := sdioTypeCfgDataCfm
  header := [0]
  payload := [1, 2, 3, 4, 5, 6, 7, 8]
  pad := []
  header_length := by decide
  payload_pos := by decide
  payload_length := by decide
  pad_length := by decide
  aligned := by decide

/-- The frame and the confirmation, in front of a block that is filled up with zeros. -/
theorem rxframes_roundtrip_cfm :
    Reads (rxframesLoop true [])
      (([5, 0, 0] ++ List.replicate 57 0 ++ [9, 8, 7, 6, 5] ++ [0, 0, 0]) ++
        [8, 0, 0x12, 0, 1, 2, 3, 4, 5, 6, 7, 8] ++ [0, 0, 0, 0]) .done
      [.rxdataind ([5, 0, 0] ++ List.replicate 57 0 ++ [9, 8, 7, 6, 5]),
        .txCfm [1, 2, 3, 4, 5, 6, 7, 8]] :=
  rxframes_roundtrip true [] [sampleData, sampleCfm]
    (Or.inr (show pktLen [] [0, 0, 0, 0] = 0 by decide))

end Aic
