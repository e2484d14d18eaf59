import FheBlockchain.Core.Signatures
import FheBlockchain.Net.Listening

namespace FheBlockchain.Net.FrameReading

open Core.Transactions Core.Serialization Core.Signatures Library.BigEndian Listening

variable {l : Listener} {frame : Frame} {msgs : List Frame} {piece rest : Bytes}

section Encoding

@[simp]
theorem length_int32ToUchar (num : Int32) : (int32ToUcharBigEndian num).length = 4 :=
  length_bigEndian 4 _

theorem charsToInt32_append (num : Int32) (rest : Bytes) :
    charsToInt32BigEndian (int32ToUcharBigEndian num ++ rest) = num := by
  have hlt : num.toUInt32.toNat < 256 ^ 4 := num.toUInt32.toNat_lt
  rw [charsToInt32BigEndian, List.take_left' (length_int32ToUchar num), int32ToUcharBigEndian,
    ofBigEndian_bigEndian, Nat.mod_eq_of_lt hlt, UInt32.ofNat_toNat, Int32.toInt32_toUInt32]

def header (frame : Frame) : Bytes :=
  int32ToUcharBigEndian (Int32.ofNat frame.2.length) ++ int32ToUcharBigEndian frame.1

def encode (frame : Frame) : Bytes := header frame ++ frame.2

@[simp]
theorem length_header (frame : Frame) : (header frame).length = 8 := by
  simp [header]

theorem buildMessage_ok (frame : Frame) : buildMessage frame = .ok (encode frame) := by
  have hvec : writeHeader (Int32.ofNat frame.2.length) frame.1 (zeros (8 + frame.2.length)) =
      .ok (header frame ++ zeros frame.2.length) := by
    rw [writeHeader, if_neg (by simp [zeros]), header]
    simp [zeros]
  have hcopy : copyTo (header frame ++ zeros frame.2.length) 8 frame.2 = .ok (encode frame) := by
    rw [copyTo, if_pos (by simp [zeros]), List.take_left' (length_header frame)]
    simp [encode, zeros]
  rw [buildMessage, hvec]
  exact hcopy

def stream (msgs : List Frame) : Bytes := (msgs.map encode).flatten

theorem stream_cons : stream (frame :: msgs) = header frame ++ (frame.2 ++ stream msgs) := by
  simp [stream, encode]

end Encoding

section Buffers

variable {buffer : Bytes} {n : ℕ}

theorem take_overwrite (h : n + piece.length ≤ buffer.length) :
    (Listener.overwrite buffer n piece).take (n + piece.length) = buffer.take n ++ piece := by
  rw [Listener.overwrite, List.take_left']
  rw [List.length_append, List.length_take, Nat.min_eq_left (by omega)]

theorem length_overwrite (h : n + piece.length ≤ buffer.length) :
    (Listener.overwrite buffer n piece).length = buffer.length := by
  simp [Listener.overwrite]
  omega

@[simp]
theorem length_resize : (Listener.resize buffer n).length = n := by
  simp [Listener.resize, zeros]
  omega

theorem toSize_ofNat {k : ℕ} (h : k < 2 ^ 31) : toSize (Int32.ofNat k) = k := by
  rw [toSize, Int32.toInt_ofNat_of_lt h]
  omega

end Buffers

/-- What has been read of a header, along with what is still to come, makes up
the given messages. -/
structure InHeader (l : Listener) (rest : Bytes) (msgs : List Frame) : Prop where
  phase : l.phase = .header
  buffer : l.headerData.length = 8
  n : l.n < 8
  bytes : l.headerData.take l.n ++ rest = stream msgs

/-- The same between the two loops and in the second one. -/
structure InPayload (l : Listener) (rest payload : Bytes) (later : List Frame) : Prop where
  phase : l.phase = .payload
  buffer : l.headerData.length = 8
  data : l.vData.length = payload.length
  len : toSize l.msgLen = payload.length
  n : l.n ≤ payload.length
  bytes : l.vData.take l.n ++ rest = payload ++ stream later

def Awaits (l : Listener) (rest : Bytes) (msgs : List Frame) : Prop :=
  InHeader l rest msgs ∨ ∃ payload later, msgs = (l.msgType, payload) :: later ∧
    InPayload l rest payload later ∧ l.n ≠ payload.length

section Steps

variable {payload : Bytes} {later : List Frame}

theorem routeIfFull_awaits (h : InPayload l rest payload later) :
    ∃ left, (l.msgType, payload) :: later = l.routeIfFull.2 ++ left ∧
      Awaits l.routeIfFull.1 rest left := by
  rw [Listener.routeIfFull, h.len]
  split_ifs with hfull
  · have htake : (l.vData.take l.n).length = payload.length := by simp [h.data, hfull]
    obtain ⟨hpayload, hlater⟩ := List.append_inj h.bytes htake
    refine ⟨later, by rw [hpayload]; rfl, .inl ⟨rfl, h.buffer, by simp, ?_⟩⟩
    rw [List.take_zero, List.nil_append, hlater]
  · exact ⟨(l.msgType, payload) :: later, rfl, .inr ⟨payload, later, rfl, h, hfull⟩⟩

theorem readPayload_inPayload (h : InPayload l (piece ++ rest) payload later)
    (hsize : l.n + piece.length ≤ payload.length) :
    InPayload (l.readPayload piece) rest payload later := by
  have hfits : l.n + piece.length ≤ l.vData.length := h.data ▸ hsize
  refine ⟨h.phase, h.buffer, (length_overwrite hfits).trans h.data, h.len, hsize, ?_⟩
  rw [Listener.readPayload, take_overwrite hfits, List.append_assoc, h.bytes]

theorem parseHeader_awaits (hlen : ∀ m ∈ msgs, m.2.length < 2 ^ 31)
    (hbuffer : l.headerData.length = 8) (hbytes : l.headerData ++ rest = stream msgs) :
    ∃ l' out left, l.parseHeader = .ok (l', out) ∧ msgs = out ++ left ∧ Awaits l' rest left := by
  cases msgs with
  | nil =>
    have hnil := congrArg List.length hbytes
    simp [stream, hbuffer] at hnil
  | cons frame later =>
    have hframe := hlen frame List.mem_cons_self
    rw [stream_cons] at hbytes
    obtain ⟨hheader, hrest⟩ := List.append_inj hbytes (hbuffer.trans (length_header frame).symm)
    have hmsgLen : charsToInt32BigEndian l.headerData = Int32.ofNat frame.2.length := by
      rw [hheader, header, charsToInt32_append]
    have hmsgType : charsToInt32BigEndian (l.headerData.drop 4) = frame.1 := by
      rw [hheader, header, List.drop_left' (length_int32ToUchar _)]
      simpa using charsToInt32_append frame.1 []
    have hnonneg : ¬ Int32.ofNat frame.2.length < 0 := by
      rw [Int32.lt_iff_toInt_lt, Int32.toInt_ofNat_of_lt hframe]
      simp
    rw [Listener.parseHeader, hmsgLen, if_neg hnonneg, hmsgType]
    obtain ⟨left, hleft, hawaits⟩ := @routeIfFull_awaits { l with
        msgLen := Int32.ofNat frame.2.length
        msgType := frame.1
        vData := Listener.resize l.vData (toSize (Int32.ofNat frame.2.length))
        phase := .payload
        n := 0 } rest frame.2 later ⟨rfl, hbuffer, by simp [toSize_ofNat hframe], toSize_ofNat hframe,
          Nat.zero_le _, by simpa using hrest⟩
    exact ⟨_, _, left, rfl, hleft, hawaits⟩

theorem receive_awaits (hlen : ∀ m ∈ msgs, m.2.length < 2 ^ 31)
    (h : Awaits l (piece ++ rest) msgs) (hsize : piece.length ≤ l.wanted) :
    ∃ l' out left, l.receive piece = .ok (l', out) ∧ msgs = out ++ left ∧ Awaits l' rest left := by
  rcases h with h | ⟨payload, later, rfl, h, hpart⟩
  · rw [Listener.wanted, h.phase] at hsize
    have hn := h.n
    have hbuffer := h.buffer
    have hfits : l.n + piece.length ≤ l.headerData.length := by
      dsimp only at hsize
      omega
    have hlength : (l.readHeader piece).headerData.length = 8 :=
      (length_overwrite hfits).trans hbuffer
    have hread : (l.readHeader piece).headerData.take (l.readHeader piece).n ++ rest =
        stream msgs := by
      rw [Listener.readHeader, take_overwrite hfits, List.append_assoc, h.bytes]
    rw [Listener.receive, h.phase]
    dsimp only
    by_cases hfull : (l.readHeader piece).n = 8
    · rw [if_neg (not_not.mpr hfull)]
      rw [hfull, List.take_of_length_le hlength.le] at hread
      exact parseHeader_awaits hlen hlength hread
    · rw [if_pos hfull]
      refine ⟨_, [], msgs, rfl, rfl, .inl ⟨h.phase, hlength, ?_, hread⟩⟩
      have hle : (l.readHeader piece).n ≤ 8 := hbuffer ▸ hfits
      omega
  · rw [Listener.wanted, h.phase] at hsize
    have hn := h.n
    have hlen' := h.len
    have hfits : l.n + piece.length ≤ payload.length := by
      dsimp only at hsize
      omega
    rw [Listener.receive, h.phase]
    obtain ⟨left, hleft, hawaits⟩ := routeIfFull_awaits (readPayload_inPayload h hfits)
    exact ⟨_, _, left, rfl, hleft, hawaits⟩

theorem Awaits.done (h : Awaits l [] msgs) : msgs = [] ∧ l.AtStart := by
  rcases h with h | ⟨payload, later, rfl, h, hpart⟩
  · have hlength := congrArg List.length h.bytes
    have hn := h.n
    cases msgs with
    | nil =>
      have hzero : l.n = 0 := by
        simp [stream, h.buffer] at hlength
        omega
      exact ⟨rfl, h.buffer, h.phase, hzero⟩
    | cons frame later =>
      simp [stream_cons, h.buffer] at hlength
      omega
  · have hlength := congrArg List.length h.bytes
    have hn := h.n
    simp [h.data] at hlength
    omega

end Steps

/-- Whatever the pieces, the messages come out as they went in. -/
theorem listen_awaits {pieces : List Bytes} (hlen : ∀ m ∈ msgs, m.2.length < 2 ^ 31)
    (h : Awaits l pieces.flatten msgs) (hserved : l.Served pieces) :
    ∃ l', l.listen pieces = .ok (l', msgs) ∧ l'.AtStart := by
  induction pieces generalizing l msgs with
  | nil =>
    obtain ⟨rfl, hstart⟩ := h.done
    exact ⟨l, rfl, hstart⟩
  | cons piece pieces ih =>
    obtain ⟨-, hsize, hserved⟩ := hserved
    rw [List.flatten_cons] at h
    obtain ⟨l₁, out, left, hreceive, rfl, hawaits⟩ := receive_awaits hlen h hsize
    rw [hreceive] at hserved
    obtain ⟨l₂, hlisten, hstart⟩ := ih (fun m hm ↦ hlen m (List.mem_append_right out hm)) hawaits
      hserved
    refine ⟨l₂, ?_, hstart⟩
    simp only [Listener.listen, hreceive, hlisten, bind, Except.bind]
    rfl

/-- Frames that are built for any messages and cut into any pieces are read as
the same messages, and nothing is left over. -/
theorem framing_round_trip (msgs : List Frame) (hlen : ∀ m ∈ msgs, m.2.length < 2 ^ 31) :
    ∃ frames, msgs.mapM buildMessage = .ok frames ∧
      ∀ (l : Listener) (pieces : List Bytes), l.AtStart → pieces.flatten = frames.flatten →
        l.Served pieces → ∃ l', l.listen pieces = .ok (l', msgs) ∧ l'.AtStart := by
  refine ⟨msgs.map encode, ?_, fun l pieces hstart hpieces hserved ↦ ?_⟩
  · exact mapM_ok fun frame _ ↦ buildMessage_ok frame
  · refine listen_awaits hlen (.inl ⟨hstart.phase, hstart.buffer, ?_, ?_⟩) hserved
    · simp [hstart.n]
    · rw [hstart.n, List.take_zero, List.nil_append, hpieces]
      rfl

/-- A payload of three bytes and an empty one, the second header in two reads. -/
theorem framing_round_trip_pieces : ∃ l', Listener.listen ⟨zeros 8, [9], 0, 0, .header, 0⟩
    [[0, 0, 0], [3, 0, 0, 0, 6], [7], [8, 9], [0, 0, 0, 0, 0], [0, 0, 3]] =
      .ok (l', [(6, [7, 8, 9]), (3, [])]) ∧ l'.AtStart := by
  obtain ⟨frames, hframes, hall⟩ := framing_round_trip [(6, [7, 8, 9]), (3, [])] (by decide)
  have hbuilt : [(6, [7, 8, 9]), (3, [])].mapM buildMessage =
      .ok [[0, 0, 0, 3, 0, 0, 0, 6, 7, 8, 9], [0, 0, 0, 0, 0, 0, 0, 3]] := by decide +kernel
  obtain rfl := Except.ok.inj (hframes.symm.trans hbuilt)
  exact hall _ _ ⟨rfl, rfl, rfl⟩ (by decide) (by decide +kernel)

end FheBlockchain.Net.FrameReading
