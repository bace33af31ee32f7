import Ryther.Network.Wire

/-!
# Framing on a connection

The writer and the reader task of `src/network/transport.rs`: each message goes out as a length of
four bytes, most significant first, and its encoding. The reader leaves the loop at the end of the
stream and at a length above the configured limit, and skips what it cannot parse.

* `frame`, `sent` — the stream the writer produces; the length is cut to 32 bits.
* `readLoop`, `received` — the messages the reader delivers; `readLoop_fuel` says that the loop
  never runs out of fuel.
* `received_sent_iff` — messages within the limit arrive as they were sent exactly if no encoding
  has `2 ^ 32` bytes or more.
-/

namespace Ryther

open Lib

namespace TcpTransport

/-- A length and the data.
Source: `network/transport.rs`, the writer task in `TcpTransport::setup_connection`
Kind: D -/
def frame (data : List UInt8) : List UInt8 :=
  beBytes 4 (UInt32.ofNat data.length).toNat ++ data

/-- The stream after the writer sent some messages.
Source: `network/transport.rs`, the writer task in `TcpTransport::setup_connection`
Kind: D -/
def sent (messages : List NetworkMessage) : List UInt8 :=
  messages.flatMap fun msg => frame msg.toBytes

/-- `read_exact` on a stream that has ended: the bytes and the rest, or an error.
Kind: D -/
def readExact (n : ℕ) (stream : List UInt8) : Option (List UInt8 × List UInt8) :=
  if n ≤ stream.length then some (stream.take n, stream.drop n) else none

/-- Frame after frame is read until the stream ends, a length is above the limit or the data are cut
off.
Source: `network/transport.rs`, the loop of the reader task in `TcpTransport::setup_connection`
Kind: D -/
def readLoop (maxSize : UInt64) : ℕ → List UInt8 → List NetworkMessage
  | 0, _ => []
  | fuel + 1, stream =>
      match readExact 4 stream with
      | none => []
      | some (lenBuf, stream) =>
          let len := ofBeBytes lenBuf
          if len > maxSize.toNat then []
          else
            match readExact len stream with
            | none => []
            | some (data, stream) =>
                (NetworkMessage.fromBytes data).toList ++ readLoop maxSize fuel stream

/-- The messages the reader delivers; every turn takes at least four bytes.
Source: `network/transport.rs`, the reader task in `TcpTransport::setup_connection`
Kind: D -/
def received (maxSize : UInt64) (stream : List UInt8) : List NetworkMessage :=
  readLoop maxSize (stream.length + 1) stream

/-! ### Reading -/

/-- What is read has the asked length and stands in front of the stream. Kind: L -/
theorem readExact_eq_some {n : ℕ} {stream data rest : List UInt8} :
    readExact n stream = some (data, rest) ↔ data.length = n ∧ stream = data ++ rest := by
  unfold readExact
  split_ifs with hle
  · rw [Option.some.injEq, Prod.mk.injEq]
    constructor
    · rintro ⟨rfl, rfl⟩
      exact ⟨List.length_take_of_le hle, (List.take_append_drop n stream).symm⟩
    · rintro ⟨rfl, rfl⟩
      exact ⟨List.take_left, List.drop_left⟩
  · refine iff_of_false nofun ?_
    rintro ⟨rfl, rfl⟩
    rw [List.length_append] at hle
    omega

/-- **The loop does not run out of fuel.** Kind: P -/
theorem readLoop_fuel (maxSize : UInt64) (fuel more : ℕ) :
    ∀ stream : List UInt8, stream.length < fuel →
      readLoop maxSize (fuel + more) stream = readLoop maxSize fuel stream := by
  induction fuel with
  | zero => intro stream h; omega
  | succ fuel ih =>
      intro stream h
      rw [Nat.add_right_comm, readLoop, readLoop]
      cases hlen : readExact 4 stream with
      | none => rfl
      | some answer =>
          obtain ⟨lenBuf, rest⟩ := answer
          obtain ⟨hfour, rfl⟩ := readExact_eq_some.mp hlen
          simp only
          split_ifs
          · rfl
          · cases hdata : readExact (ofBeBytes lenBuf) rest with
            | none => rfl
            | some answer =>
                obtain ⟨data, rest'⟩ := answer
                obtain ⟨-, rfl⟩ := readExact_eq_some.mp hdata
                simp only
                rw [ih rest' (by simp only [List.length_append] at h; omega)]

/-- Any fuel above the length of the stream gives what is received. Kind: L -/
theorem readLoop_eq_received (maxSize : UInt64) {fuel : ℕ} {stream : List UInt8}
    (h : stream.length < fuel) : readLoop maxSize fuel stream = received maxSize stream := by
  obtain ⟨more, rfl⟩ := Nat.exists_eq_add_of_lt h
  rw [show stream.length + more + 1 = stream.length + 1 + more by omega]
  exact readLoop_fuel maxSize _ more stream (Nat.lt_succ_self _)

/-- A length of 32 bits from its four bytes. Kind: L -/
theorem ofBeBytes_length (n : ℕ) : ofBeBytes (beBytes 4 (UInt32.ofNat n).toNat) = n % 2 ^ 32 := by
  rw [ofBeBytes_beBytes, UInt32.toNat_ofNat']
  omega

/-- **One frame is read as one message**, and the loop goes on behind it. Kind: P -/
theorem received_frame_append (maxSize : UInt64) (msg : NetworkMessage) (stream : List UInt8)
    (hsize : msg.toBytes.length ≤ maxSize.toNat) (hlen : msg.toBytes.length < 2 ^ 32) :
    received maxSize (frame msg.toBytes ++ stream) = msg :: received maxSize stream := by
  have hhead : readExact 4 (frame msg.toBytes ++ stream) =
      some (beBytes 4 (UInt32.ofNat msg.toBytes.length).toNat, msg.toBytes ++ stream) :=
    readExact_eq_some.mpr ⟨length_beBytes _ _, by rw [frame, List.append_assoc]⟩
  have hdata : readExact msg.toBytes.length (msg.toBytes ++ stream) = some (msg.toBytes, stream) :=
    readExact_eq_some.mpr ⟨rfl, rfl⟩
  rw [received, readLoop, hhead]
  simp only [ofBeBytes_length, Nat.mod_eq_of_lt hlen, hdata]
  rw [if_neg (by omega), NetworkMessage.fromBytes_toBytes msg (by omega), Option.toList_some,
    List.singleton_append, readLoop_eq_received]
  rw [List.length_append, frame, List.length_append, length_beBytes]
  omega

/-- **A delivered message has an encoding of less than `2 ^ 32` bytes**, as it fits into a frame.
Kind: P -/
theorem length_of_mem_readLoop (maxSize : UInt64) (fuel : ℕ) :
    ∀ (stream : List UInt8), ∀ msg ∈ readLoop maxSize fuel stream, msg.toBytes.length < 2 ^ 32 := by
  induction fuel with
  | zero => intro stream msg h; cases h
  | succ fuel ih =>
      intro stream msg h
      rw [readLoop] at h
      cases hlen : readExact 4 stream with
      | none => simp [hlen] at h
      | some answer =>
          obtain ⟨lenBuf, rest⟩ := answer
          obtain ⟨hfour, rfl⟩ := readExact_eq_some.mp hlen
          simp only [hlen] at h
          split_ifs at h
          · cases h
          · cases hdata : readExact (ofBeBytes lenBuf) rest with
            | none => simp [hdata] at h
            | some answer =>
                obtain ⟨data, rest'⟩ := answer
                obtain ⟨hdataLen, -⟩ := readExact_eq_some.mp hdata
                simp only [hdata] at h
                rcases List.mem_append.mp h with h | h
                · -- the encoding is the front of the data
                  have hpre := (NetworkMessage.toBytes_prefix_of_fromBytes
                    (Option.mem_toList.mp h)).length_le
                  have hlt := ofLeBytes_lt lenBuf.reverse
                  rw [List.length_reverse, hfour] at hlt
                  have hbound : ofBeBytes lenBuf < 256 ^ 4 := hlt
                  omega
                · exact ih rest' msg h

/-! ### Round trip -/

/-- **Which messages arrive as they were sent.**
Source: `network/transport.rs`, `TcpTransport::setup_connection`
Kind: P -/
theorem received_sent_iff (maxMessageSize : UInt64) (messages : List NetworkMessage)
    (hsize : ∀ msg ∈ messages, msg.toBytes.length ≤ maxMessageSize.toNat) :
    received maxMessageSize (sent messages) = messages ↔
      ∀ msg ∈ messages, msg.toBytes.length < 2 ^ 32 := by
  constructor
  · intro h msg hmem
    rw [← h] at hmem
    exact length_of_mem_readLoop _ _ _ msg hmem
  · intro hlen
    induction messages with
    | nil => rfl
    | cons msg messages ih =>
        rw [sent, List.flatMap_cons,
          received_frame_append _ _ _ (hsize msg List.mem_cons_self) (hlen msg List.mem_cons_self)]
        congr 1
        apply ih
        · exact fun m hm => hsize m (List.mem_cons_of_mem _ hm)
        · exact fun m hm => hlen m (List.mem_cons_of_mem _ hm)

/-- A ping, an event and an empty message, with the default limit of 16 MiB. Kind: L -/
theorem received_sent_three :
    let messages : List NetworkMessage :=
      [⟨1, .fill 16 1, .fill 32 0, .ping 7⟩,
        ⟨1, .fill 16 2, .fill 32 0,
          .eventResponse ⟨[makeEvent (fun _ => .fill 32 1) 1 1 [.fill 32 9]], [.fill 32 8]⟩⟩,
        ⟨1, .fill 16 3, .fill 32 0, .getPeers⟩]
    received 0x1000000 (sent messages) = messages :=
  (received_sent_iff 0x1000000 _ (by decide +kernel)).mpr (by decide +kernel)

/-! ### A message of 4 GiB -/

/-- A broadcast transaction with the given ciphertext. Kind: D -/
def broadcastOf (ciphertext : List UInt8) : NetworkMessage where
  version := 0xFF
  messageId := .fill 16 0xFF
  sender := .fill 32 0
  payload := .transactionBroadcast ⟨⟨ciphertext, ⟨[], []⟩, .fill 32 0⟩⟩

/-- The size of a broadcast is that of its ciphertext and a constant. Kind: L -/
theorem length_toBytes_broadcastOf (ciphertext : List UInt8) :
    (broadcastOf ciphertext).toBytes.length = ciphertext.length + 109 := by
  simp only [NetworkMessage.toBytes, broadcastOf, Wire.networkMessage, Wire.messageType,
    Wire.messageTypeEquiv, Wire.payload, Wire.transactionBroadcast, Wire.encryptedTransaction,
    Wire.thresholdCapsule, Codec.encode_map, Codec.encode_pair, Codec.encode_sigma,
    Codec.encode_restrict, Equiv.coe_fn_mk, Codec.encode_u8, Codec.encode_u32,
    Codec.encode_array, Codec.encode_byteList, List.length_append, List.Vector.toList_length,
    length_leBytes, List.length_singleton, List.length_nil]
  omega

/-- The version and the beginning of the id. Kind: L -/
theorem toBytes_broadcastOf (ciphertext : List UInt8) :
    (broadcastOf ciphertext).toBytes =
      List.replicate 4 0xFF ++ (broadcastOf ciphertext).toBytes.drop 4 :=
  (List.take_append_drop 4 _).symm

/-- A frame of `2 ^ 32` bytes that begins with four bytes `0xFF`: its length is cut to zero, so the
reader takes an empty message, then the four bytes as the next length, and finds the end of the
stream. Kind: L -/
theorem received_frame_cut {bytes rest : List UInt8}
    (hbytes : bytes = List.replicate 4 0xFF ++ rest) (hlen : bytes.length = 2 ^ 32) :
    received 0x100000000 (frame bytes) = [] := by
  have hhead : readExact 4 (frame bytes) =
      some (beBytes 4 (UInt32.ofNat bytes.length).toNat, bytes) :=
    readExact_eq_some.mpr ⟨length_beBytes _ _, rfl⟩
  have hempty : readExact 0 bytes = some ([], bytes) := readExact_eq_some.mpr ⟨rfl, rfl⟩
  have hnext : readExact 4 bytes = some (List.replicate 4 0xFF, rest) :=
    readExact_eq_some.mpr ⟨List.length_replicate, hbytes⟩
  have hcut : ofBeBytes (beBytes 4 (UInt32.ofNat bytes.length).toNat) = 0 := by
    rw [ofBeBytes_length, hlen, Nat.mod_self]
  have hend : readExact (ofBeBytes (List.replicate 4 0xFF)) rest = none := by
    rw [hbytes, List.length_append, List.length_replicate] at hlen
    refine if_neg ?_
    show ¬ 4294967295 ≤ rest.length
    omega
  have hfuel : (frame bytes).length = bytes.length + 3 + 1 := by
    rw [frame, List.length_append, length_beBytes, Nat.add_comm]
  rw [received, hfuel, readLoop, hhead]
  simp only [hcut, hempty]
  rw [if_neg (Nat.not_lt_zero _), readLoop, hnext]
  simp only [hend, ite_self]
  rfl

/-- **A message of 4 GiB is lost**, although it is within the limit. Kind: P -/
theorem huge_message_is_lost :
    let huge := broadcastOf (List.replicate 4294967187 0)
    huge.toBytes.length ≤ (0x100000000 : UInt64).toNat ∧
      received 0x100000000 (sent [huge]) = [] := by
  intro huge
  have hlen : huge.toBytes.length = 2 ^ 32 := by
    rw [length_toBytes_broadcastOf, List.length_replicate]
    rfl
  refine ⟨hlen.le, ?_⟩
  have hsent : sent [huge] = frame huge.toBytes := List.append_nil _
  rw [hsent]
  exact received_frame_cut (toBytes_broadcastOf _) hlen

end TcpTransport

end Ryther
