import Ryther.Network.Transport

/-!
# What a reader makes of a stream

The reader task of `src/network/transport.rs` on any stream, not only on one that a writer of this
program produced, and on a stream that ends in the middle.

* `Fits`, `Stuck` — frames that are read, and what the reader stops at.
* `stream_read_in_frames` — every stream is in one way frames that fit and a rest that the reader
  stops at; what is delivered are the messages in the frames, and more bytes take none back.
* `cut_connection_delivers_first` — of the messages that a writer sent, a connection that breaks
  delivers those whose frames were complete.
-/

namespace Ryther

open Lib

namespace TcpTransport

variable {maxSize : UInt64} {data stream tail : List UInt8}

/-- Data that the reader takes from a frame.
Kind: D -/
def Fits (maxSize : UInt64) (data : List UInt8) : Prop :=
  data.length ≤ maxSize.toNat ∧ data.length < 2 ^ 32

/-- What the reader stops at: no complete length, a length above the limit, or less data than the
length says.
Kind: D -/
def Stuck (maxSize : UInt64) (tail : List UInt8) : Prop :=
  tail.length < 4 ∨ ∃ lenBuf rest : List UInt8, lenBuf.length = 4 ∧ tail = lenBuf ++ rest ∧
    (maxSize.toNat < ofBeBytes lenBuf ∨ rest.length < ofBeBytes lenBuf)

/-! ### One turn of the loop -/

/-- The first four bytes of a frame are its length. Kind: L -/
theorem readExact_frame (data stream : List UInt8) :
    readExact 4 (frame data ++ stream) =
      some (beBytes 4 (UInt32.ofNat data.length).toNat, data ++ stream) :=
  readExact_eq_some.mpr ⟨length_beBytes _ _, by rw [frame, List.append_assoc]⟩

/-- A frame that fits is taken, and the loop goes on behind it. Kind: L -/
theorem received_frame_of_fits (h : Fits maxSize data) (stream : List UInt8) :
    received maxSize (frame data ++ stream) =
      (NetworkMessage.fromBytes data).toList ++ received maxSize stream := by
  have hdata : readExact data.length (data ++ stream) = some (data, stream) :=
    readExact_eq_some.mpr ⟨rfl, rfl⟩
  have hlimit : ¬ data.length > maxSize.toNat := Nat.not_lt.mpr h.1
  rw [received, readLoop, readExact_frame]
  simp only [ofBeBytes_length, Nat.mod_eq_of_lt h.2, hdata, if_neg hlimit]
  rw [readLoop_eq_received]
  rw [List.length_append, frame, List.length_append, length_beBytes]
  omega

/-- Where the reader stops, nothing is received. Kind: L -/
theorem received_of_stuck (h : Stuck maxSize tail) : received maxSize tail = [] := by
  rw [received, readLoop]
  rcases h with hshort | ⟨lenBuf, rest, hfour, rfl, hstop⟩
  · have hnone : readExact 4 tail = none := if_neg (Nat.not_le.mpr hshort)
    rw [hnone]
  · have hhead : readExact 4 (lenBuf ++ rest) = some (lenBuf, rest) :=
      readExact_eq_some.mpr ⟨hfour, rfl⟩
    rw [hhead]
    dsimp only
    split_ifs with hlimit
    · rfl
    · have hnone : readExact (ofBeBytes lenBuf) rest = none :=
        if_neg (Nat.not_le.mpr (hstop.resolve_left hlimit))
      rw [hnone]

/-- The length in front of some data is the one that a frame has. Kind: L -/
theorem frame_of_ofBeBytes {lenBuf : List UInt8} (hfour : lenBuf.length = 4)
    (hlen : data.length = ofBeBytes lenBuf) : frame data = lenBuf ++ data := by
  have hbound : ofBeBytes lenBuf < 256 ^ 4 := hfour ▸ ofBeBytes_lt lenBuf
  have hbytes : beBytes 4 (UInt32.ofNat data.length).toNat = lenBuf := by
    apply eq_of_ofBeBytes_eq
    · rw [length_beBytes, hfour]
    · rw [ofBeBytes_length, Nat.mod_eq_of_lt (hlen ▸ hbound), hlen]
  rw [frame, hbytes]

/-- **A stream begins with a frame, or the reader stops.** Kind: L -/
theorem stuck_or_frame (maxSize : UInt64) (stream : List UInt8) :
    Stuck maxSize stream ∨ ∃ data rest, Fits maxSize data ∧ stream = frame data ++ rest := by
  by_cases hshort : stream.length < 4
  · exact .inl (.inl hshort)
  · have hfour : (stream.take 4).length = 4 := List.length_take_of_le (Nat.not_lt.mp hshort)
    have hsplit : stream = stream.take 4 ++ stream.drop 4 := (List.take_append_drop 4 stream).symm
    by_cases hstop : maxSize.toNat < ofBeBytes (stream.take 4) ∨
        (stream.drop 4).length < ofBeBytes (stream.take 4)
    · exact .inl (.inr ⟨_, _, hfour, hsplit, hstop⟩)
    · rw [not_or, Nat.not_lt, Nat.not_lt] at hstop
      obtain ⟨hlimit, henough⟩ := hstop
      have hlen := List.length_take_of_le henough
      have hbound : ofBeBytes (stream.take 4) < 256 ^ 4 := by
        have hlt := ofBeBytes_lt (stream.take 4)
        rwa [hfour] at hlt
      refine .inr ⟨(stream.drop 4).take (ofBeBytes (stream.take 4)),
        (stream.drop 4).drop (ofBeBytes (stream.take 4)), ⟨?_, ?_⟩, ?_⟩
      · rw [hlen]
        exact hlimit
      · rw [hlen]
        exact hbound
      · rw [frame_of_ofBeBytes hfour hlen, List.append_assoc, List.take_append_drop,
          List.take_append_drop]

/-- The reader does not stop at a frame that fits. Kind: L -/
theorem not_stuck_frame (h : Fits maxSize data) (stream : List UInt8) :
    ¬ Stuck maxSize (frame data ++ stream) := by
  rintro (hshort | ⟨lenBuf, rest, hfour, hsplit, hstop⟩)
  · rw [List.length_append, frame, List.length_append, length_beBytes] at hshort
    omega
  · have hhead := readExact_frame data stream
    rw [hsplit, readExact_eq_some.mpr ⟨hfour, rfl⟩, Option.some.injEq, Prod.mk.injEq] at hhead
    obtain ⟨rfl, rfl⟩ := hhead
    have hlimit := h.1
    rw [ofBeBytes_length, Nat.mod_eq_of_lt h.2, List.length_append] at hstop
    omega

/-- What two streams that begin with frames have in common. Kind: L -/
theorem frame_append_inj {data' stream' : List UInt8} (h : Fits maxSize data)
    (h' : Fits maxSize data') (heq : frame data ++ stream = frame data' ++ stream') :
    data = data' ∧ stream = stream' := by
  have hhead := readExact_frame data stream
  rw [heq, readExact_frame, Option.some.injEq, Prod.mk.injEq] at hhead
  obtain ⟨hlen, hrest⟩ := hhead
  have hlength := congrArg ofBeBytes hlen
  rw [ofBeBytes_length, ofBeBytes_length, Nat.mod_eq_of_lt h.2, Nat.mod_eq_of_lt h'.2] at hlength
  obtain ⟨hdata, hstream⟩ := List.append_inj hrest hlength
  exact ⟨hdata.symm, hstream.symm⟩

/-! ### Whole streams -/

/-- Frames that fit are taken one after the other. Kind: L -/
theorem received_frames_append {datas : List (List UInt8)} (h : ∀ data ∈ datas, Fits maxSize data)
    (stream : List UInt8) :
    received maxSize (datas.flatMap frame ++ stream) =
      datas.filterMap NetworkMessage.fromBytes ++ received maxSize stream := by
  induction datas with
  | nil => rfl
  | cons data datas ih =>
      rw [List.flatMap_cons, List.append_assoc, received_frame_of_fits (h data List.mem_cons_self),
        ih fun d hd => h d (List.mem_cons_of_mem _ hd), List.filterMap_cons]
      rcases NetworkMessage.fromBytes data with _ | msg <;> rfl

/-- A stream as frames that fit and a rest that the reader stops at.
Kind: D -/
structure Split (maxSize : UInt64) (stream : List UInt8) (datas : List (List UInt8))
    (tail : List UInt8) : Prop where
  stream_eq : stream = datas.flatMap frame ++ tail
  fits : ∀ data ∈ datas, Fits maxSize data
  stuck : Stuck maxSize tail

/-- There is such a split. By induction on the length of the stream. Kind: L -/
theorem exists_split (maxSize : UInt64) (stream : List UInt8) :
    ∃ datas tail, Split maxSize stream datas tail := by
  rcases stuck_or_frame maxSize stream with hstuck | ⟨data, rest, hfits, hstream⟩
  · exact ⟨[], stream, rfl, by simp, hstuck⟩
  · have hshorter : rest.length < stream.length := by
      rw [hstream, List.length_append, frame, List.length_append, length_beBytes]
      omega
    obtain ⟨datas, tail, hsplit⟩ := exists_split maxSize rest
    refine ⟨data :: datas, tail, ?_, ?_, hsplit.stuck⟩
    · rw [hstream, hsplit.stream_eq, List.flatMap_cons, List.append_assoc]
    · rintro d (_ | ⟨_, hd⟩)
      · exact hfits
      · exact hsplit.fits d hd
termination_by stream.length

/-- There is only one. By induction on the frames. Kind: L -/
theorem Split.unique {datas datas' : List (List UInt8)} {tail' : List UInt8}
    (h : Split maxSize stream datas tail) (h' : Split maxSize stream datas' tail') :
    datas = datas' ∧ tail = tail' := by
  induction datas generalizing stream datas' with
  | nil =>
      rcases datas' with _ | ⟨data', datas'⟩
      · exact ⟨rfl, h.stream_eq.symm.trans h'.stream_eq⟩
      · have heq := h.stream_eq.symm.trans h'.stream_eq
        rw [List.flatMap_cons, List.append_assoc] at heq
        refine absurd (show Stuck maxSize tail from h.stuck) ?_
        rw [show tail = frame data' ++ (datas'.flatMap frame ++ tail') from heq]
        exact not_stuck_frame (h'.fits data' List.mem_cons_self) _
  | cons data datas ih =>
      have hstream := h.stream_eq
      rw [List.flatMap_cons, List.append_assoc] at hstream
      rcases datas' with _ | ⟨data', datas'⟩
      · have htail : stream = tail' := h'.stream_eq
        refine absurd h'.stuck ?_
        rw [← htail, hstream]
        exact not_stuck_frame (h.fits data List.mem_cons_self) _
      · have hstream' := h'.stream_eq
        rw [List.flatMap_cons, List.append_assoc, hstream] at hstream'
        obtain ⟨rfl, hrest⟩ := frame_append_inj (h.fits data List.mem_cons_self)
          (h'.fits data' List.mem_cons_self) hstream'
        obtain ⟨rfl, rfl⟩ := ih
          ⟨rfl, fun d hd => h.fits d (List.mem_cons_of_mem _ hd), h.stuck⟩
          ⟨hrest, fun d hd => h'.fits d (List.mem_cons_of_mem _ hd), h'.stuck⟩
        exact ⟨rfl, rfl⟩

/-- **How any stream is read.** A stream of any bytes is in exactly one way a sequence of frames
within the limit and a rest at which the reader stops. The messages that are delivered are those
that the frames hold, in their order; data that is no message is skipped, and nothing of the rest is
delivered. Bytes that arrive later only add messages behind them.
Source: `network/transport.rs`, the reader task in `TcpTransport::setup_connection`
Kind: P -/
theorem stream_read_in_frames (maxSize : UInt64) (stream : List UInt8) :
    (∃ datas tail, Split maxSize stream datas tail ∧
        received maxSize stream = datas.filterMap NetworkMessage.fromBytes ∧
        ∀ datas' tail', Split maxSize stream datas' tail' → datas' = datas ∧ tail' = tail) ∧
      ∀ more, received maxSize stream <+: received maxSize (stream ++ more) := by
  obtain ⟨datas, tail, hsplit⟩ := exists_split maxSize stream
  have hreceived : received maxSize stream = datas.filterMap NetworkMessage.fromBytes := by
    rw [hsplit.stream_eq, received_frames_append hsplit.fits, received_of_stuck hsplit.stuck,
      List.append_nil]
  refine ⟨⟨datas, tail, hsplit, hreceived, fun datas' tail' hsplit' => hsplit'.unique hsplit⟩, ?_⟩
  intro more
  rw [hreceived, hsplit.stream_eq, List.append_assoc, received_frames_append hsplit.fits]
  exact List.prefix_append _ _

/-! ### A connection that breaks -/

/-- A frame that is not complete is not read. Kind: L -/
theorem stuck_take_frame (h : Fits maxSize data) {k : ℕ} (hk : k < (frame data).length) :
    Stuck maxSize ((frame data).take k) := by
  have hframe : (frame data).length = 4 + data.length := by
    rw [frame, List.length_append, length_beBytes]
  by_cases hshort : k < 4
  · left
    rw [List.length_take]
    omega
  · right
    refine ⟨beBytes 4 (UInt32.ofNat data.length).toNat, data.take (k - 4), length_beBytes _ _, ?_,
      .inr ?_⟩
    · rw [frame, List.take_append, length_beBytes,
        List.take_of_length_le (by rw [length_beBytes]; omega)]
    · rw [ofBeBytes_length, Nat.mod_eq_of_lt h.2, List.length_take]
      omega

/-- **A connection that breaks delivers the first messages.** A writer sent messages within the
limit and below 4 GiB, and the stream ends after `k` of the bytes. Then the reader delivers the
first of the messages, in order and none of them changed: all those whose frames are within the `k`
bytes.
Source: `network/transport.rs`, the writer and the reader task in `TcpTransport::setup_connection`
Kind: P -/
theorem cut_connection_delivers_first (maxSize : UInt64) (messages : List NetworkMessage)
    (hfits : ∀ msg ∈ messages, Fits maxSize msg.toBytes) (k : ℕ) :
    ∃ j ≤ messages.length, received maxSize ((sent messages).take k) = messages.take j ∧
      (sent (messages.take j)).length ≤ k ∧
      (j < messages.length → k < (sent (messages.take (j + 1))).length) := by
  induction messages generalizing k with
  | nil =>
      refine ⟨0, Nat.le_refl _, ?_, Nat.zero_le _, fun h => absurd h (Nat.lt_irrefl _)⟩
      rw [sent, List.flatMap_nil, List.take_nil]
      exact received_of_stuck (.inl (by simp))
  | cons msg messages ih =>
      have hmsg := hfits msg List.mem_cons_self
      have hsent : ∀ messages, sent (msg :: messages) = frame msg.toBytes ++ sent messages :=
        fun messages => List.flatMap_cons
      by_cases hk : k < (frame msg.toBytes).length
      · -- the first frame is not complete
        refine ⟨0, Nat.zero_le _, ?_, Nat.zero_le _, fun _ => ?_⟩
        · rw [hsent, List.take_append_of_le_length hk.le]
          exact received_of_stuck (stuck_take_frame hmsg hk)
        · rw [List.take_succ_cons, hsent, List.length_append]
          omega
      · obtain ⟨m, rfl⟩ := Nat.exists_eq_add_of_le (Nat.not_lt.mp hk)
        obtain ⟨j, hj, hreceived, hwhole, hnext⟩ :=
          ih (fun m hm => hfits m (List.mem_cons_of_mem _ hm)) m
        refine ⟨j + 1, Nat.succ_le_succ hj, ?_, ?_, fun hlt => ?_⟩
        · rw [hsent, List.take_length_add_append, received_frame_of_fits hmsg, hreceived,
            NetworkMessage.fromBytes_toBytes msg (by have := hmsg.2; omega)]
          rfl
        · rw [List.take_succ_cons, hsent, List.length_append]
          omega
        · have hlast := hnext (Nat.lt_of_succ_lt_succ hlt)
          rw [List.take_succ_cons, hsent, List.length_append]
          omega

/-- Of two messages the first is delivered if the stream ends one byte before the end. Kind: L -/
theorem cut_connection_delivers_first_two :
    let messages : List NetworkMessage :=
      [⟨1, .fill 16 1, .fill 32 0, .ping 7⟩, ⟨1, .fill 16 2, .fill 32 0, .getPeers⟩]
    let k := (sent messages).length - 1
    ∃ j ≤ 2, received 0x1000000 ((sent messages).take k) = messages.take j ∧
      (sent (messages.take j)).length ≤ k ∧
      (j < 2 → k < (sent (messages.take (j + 1))).length) := by
  intro messages k
  refine cut_connection_delivers_first 0x1000000 messages ?_ k
  intro msg hmsg
  rcases List.mem_cons.mp hmsg with rfl | hmsg
  · exact ⟨by decide +kernel, by decide +kernel⟩
  · rw [List.mem_singleton.mp hmsg]
    exact ⟨by decide +kernel, by decide +kernel⟩

end TcpTransport

end Ryther
