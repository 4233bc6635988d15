import Rdfs.FileSize
import Rdfs.Messages

/-!
# Replies with segments

The master answers a read or a write request of a client with the segments of the range :
`rdfs_client_search_metadata` prints the slave, the block, the offset and the size of each into the
request's message, one behind another, and stores their number in `nums`. The client's `rdfs_io`
has the reply stored over its own message, which is smaller, takes the number from its own `nums`,
which lies inside the master's `m_data`, and has `%ld` store the numbers to variables of type `int`.

So no reply that arrives whole is decoded within the memory of the client (`IoObjects`). Besides,
nothing separates the size of a segment from the slave of the next one, so the client reads both as
one number (`scan_joined`), and with more room a reply of two or more segments is not decoded
either. `decode_iff` says which replies are.
-/

namespace Rdfs

open List Option

/-! ## The code -/

/-- A segment of a range : where it lies on the slaves. -/
structure Segment where
  sId : ℕ
  blockId : ℕ
  blockOffset : ℕ
  size : ℕ
deriving DecidableEq, Repr

/-- The request that `rdfs_client_search_metadata` makes for a segment. -/
def Segment.request (s : Segment) : BlockRequest := (some (s.sId, s.blockId), s.blockOffset, s.size)

/-- `"%ld:%ld:%ld:%ld"`. -/
def segmentFormat : List Item :=
  [.num .ld, .lit colon, .num .ld, .lit colon, .num .ld, .lit colon, .num .ld]

/-- What is printed for a segment. -/
def Segment.text (s : Segment) : Text :=
  sprintf segmentFormat [.word s.sId, .word s.blockId, .word s.blockOffset, .word s.size]

/-- The loop of `rdfs_client_search_metadata` that prints the segments, from `cnt` on. -/
def encodeLoop (m : Mem) (cnt : ℕ) : List Segment → Mem
  | [] => m
  | s :: segs => encodeLoop (m.blit (4 + cnt) (s.text ++ [0])) (cnt + s.text.length) segs

/-- The reply in the message `m` of the request : the bytes that `rdfs_client_read` sends. -/
def encodeReply (m : Mem) (segs : List Segment) : List UInt8 :=
  ((encodeLoop m 0 segs).store 4 (4 + maxMessageLength) segs.length).bytes masterMessageSize 0

/-- The bytes of what `rdfs_io` has written through pointers : `message`, each of `s_id`,
`block_id`, `block_offset` and `size`, and the array `s`. -/
structure IoObjects where
  message : ℕ
  number : ℕ
  s : ℕ

/-- The declarations of `rdfs_io` : a `struct rdfs_message`, four variables of type `int`, and
`char s[1000]`. -/
def ioObjects : IoObjects := ⟨clientMessageSize, 4, 1000⟩

/-- What those objects hold after a call of `sscanf`. -/
structure IoVars where
  sId : ℤ
  blockId : ℤ
  blockOffset : ℤ
  size : ℤ
  s : Text
deriving DecidableEq, Repr

/-- What `sscanf` stores stays inside the object it is stored to : 8 bytes for `%ld`, and for `%s`
the word and the byte 0. -/
def Arg.Fits (o : IoObjects) : Arg → Prop
  | .word _ => 8 ≤ o.number
  | .text t => t.length < o.s

instance (o : IoObjects) : DecidablePred (Arg.Fits o)
  | .word _ => inferInstanceAs (Decidable (8 ≤ o.number))
  | .text t => inferInstanceAs (Decidable (t.length < o.s))

/-- A variable once `%ld` has stored a number there. -/
def storeNumber (args : List Arg) (i : ℕ) (old : ℤ) : ℤ :=
  match args[i]? with
  | some (.word n) => i64 n
  | _ => old

/-- An array once `%s` has stored a word there. -/
def storeText (args : List Arg) (i : ℕ) (old : Text) : Text :=
  match args[i]? with
  | some (.text t) => t
  | _ => old

/-- `"%ld:%ld:%ld:%ld:%s"`. -/
def ioFormat : List Item := segmentFormat ++ [.lit colon, .str]

/-- One call of `sscanf` in `rdfs_io`, or `none` if it stores beyond an object. -/
def ioScan (o : IoObjects) (v : IoVars) (p : Text) : Option IoVars :=
  let args := sscanf .user ioFormat p
  if ∀ a ∈ args, a.Fits o then
    some
      { sId := storeNumber args 0 v.sId
        blockId := storeNumber args 1 v.blockId
        blockOffset := storeNumber args 2 v.blockOffset
        size := storeNumber args 3 v.size
        s := storeText args 4 v.s }
  else none

/-- The loop of `rdfs_io` : the numbers of each round. -/
def ioLoop (o : IoObjects) : ℕ → IoVars → Text → Option (List (ℤ × ℤ × ℤ × ℤ))
  | 0, _, _ => some []
  | k + 1, v, p => (ioScan o v p).bind fun v =>
    (ioLoop o k v v.s).map ((v.sId, v.blockId, v.blockOffset, v.size) :: ·)

/-- The size of `struct rdfs_search_message` of a client, which `rdfs_io` passes to `recv`. -/
def searchMessageSize : ℕ := 32776

/-- The part of `rdfs_io` that decodes a reply which has arrived whole : the message lies in `buf`,
and the variables hold `v` before. It is `none` if bytes are stored beyond an object. -/
def rdfsIo (o : IoObjects) (buf : Mem) (v : IoVars) (bs : List UInt8) :
    Option (List (ℤ × ℤ × ℤ × ℤ)) :=
  if o.message < (bs.take searchMessageSize).length then none
  else
    let m := recvInto buf (bs.take searchMessageSize)
    ioLoop o (i32 (mNums m clientMessageLength)).toNat v (m.cString (searchMessageSize - 4) 4)

/-- The numbers of a segment. -/
def Segment.numbers (s : Segment) : ℤ × ℤ × ℤ × ℤ := (s.sId, s.blockId, s.blockOffset, s.size)

/-! ## What is printed -/

/-- The ranges of the numbers of a segment. -/
structure Segment.Ok (s : Segment) : Prop where
  sId : s.sId < 2 ^ 12
  blockId : s.blockId < 2 ^ 40
  blockOffset : s.blockOffset < 4096
  size_pos : 0 < s.size
  size_le : s.size ≤ 4096

theorem print_ld {n : ℕ} (h : n < 2 ^ 63) : Conv.ld.print n = numeral 10 n := by
  have hmod : n % 2 ^ Conv.ld.bits = n := Nat.mod_eq_of_lt (h.trans (by decide))
  have hneg : ¬Conv.ld.Negative n := fun hn => by
    have := hn.2
    rw [hmod] at this
    exact absurd this (by simp only [Conv.ld]; omega)
  rw [Conv.print, if_neg hneg, hmod]
  simp [Conv.digits, Conv.ld]

variable {s : Segment} {r : Text}

theorem Segment.Ok.text_eq (h : s.Ok) :
    s.text = numeral 10 s.sId ++ colon :: (numeral 10 s.blockId ++ colon ::
      (numeral 10 s.blockOffset ++ colon :: numeral 10 s.size)) := by
  have h1 := h.sId
  have h2 := h.blockId
  have h3 := h.blockOffset
  have h4 := h.size_le
  simp only [Segment.text, segmentFormat, sprintf]
  rw [print_ld (by omega), print_ld (by omega), print_ld (by omega), print_ld (by omega),
    append_nil]

theorem zero_not_mem_numeral (n : ℕ) : 0 ∉ numeral 10 n := fun h =>
  ne_zero_of_digit ((digitValue_numeral (by decide) (by decide) n 0 h).trans (by decide)) rfl

theorem Segment.Ok.zero_not_mem (h : s.Ok) : 0 ∉ s.text := by
  have hcolon : (0 : UInt8) ≠ colon := by decide
  simp only [h.text_eq, mem_append, mem_cons, not_or]
  exact ⟨zero_not_mem_numeral _, hcolon, zero_not_mem_numeral _, hcolon, zero_not_mem_numeral _,
    hcolon, zero_not_mem_numeral _⟩

theorem Segment.Ok.length_le (h : s.Ok) : s.text.length ≤ 28 := by
  have hlen : ∀ {n k : ℕ}, k ≠ 0 → n < 10 ^ k → (numeral 10 n).length ≤ k :=
    fun hk hn => length_numeral_le (by decide) hk hn
  have h1 := hlen (by decide : 4 ≠ 0) (h.sId.trans (by decide))
  have h2 := hlen (by decide : 13 ≠ 0) (h.blockId.trans (by decide))
  have h3 := hlen (by decide : 4 ≠ 0) (h.blockOffset.trans (by decide))
  have h4 := hlen (by decide : 4 ≠ 0) (h.size_le.trans_lt (by decide))
  simp only [h.text_eq, length_append, length_cons]
  omega

/-! ## What is scanned -/

theorem stops_colon (r : Text) : Stops (colon :: r) := by
  rintro b hb
  obtain rfl := some_inj.1 hb
  decide

theorem scanNum_numeral {n : ℕ} (hn : n < 2 ^ 63) (hr : Stops r) :
    scanNum .user .ld (numeral 10 n ++ r) = some (n, r) := by
  rw [← print_ld hn]
  exact scanNum_print Conv.ok_ld .user (hn.trans (by decide)) hr

/-- Two numerals that nothing separates are read as one number. -/
theorem scan_joined {n k : ℕ} (h : n * 10 ^ (numeral 10 k).length + k < 2 ^ 63) (hr : Stops r) :
    scanNum .user .ld (numeral 10 n ++ (numeral 10 k ++ r)) =
      some (n * 10 ^ (numeral 10 k).length + k, r) := by
  have hvalue : Text.value 10 (numeral 10 n ++ numeral 10 k) =
      n * 10 ^ (numeral 10 k).length + k := by
    rw [Text.value_append, value_numeral (by decide) (by decide),
      value_numeral (by decide) (by decide)]
  have hdigits : ∀ b ∈ numeral 10 n ++ numeral 10 k, digitValue b < Conv.ld.base := by
    intro b hb
    rcases mem_append.1 hb with hb | hb
    · exact digitValue_numeral (by decide) (by decide) n b hb
    · exact digitValue_numeral (by decide) (by decide) k b hb
  have hpos : ¬Conv.ld.Negative (n * 10 ^ (numeral 10 k).length + k) := fun hneg => by
    have h' := hneg.2
    rw [Nat.mod_eq_of_lt (h.trans (by decide))] at h'
    exact absurd h' (by simp only [Conv.ld]; omega)
  rw [← append_assoc, scanNum_digits .user (by decide)
    (append_ne_nil_of_left_ne_nil (numeral_ne_nil 10 n) _) hdigits (fun h0 => absurd rfl h0) hr]
  rw [show Conv.ld.base = 10 from rfl, hvalue,
    Conv.ok_ld.stored_pos .user (h.trans (by decide)) hpos]

/-- Three numerals with a colon behind each, then a number and the rest. -/
theorem sscanf_numerals {x y z w : ℕ} (hx : x < 2 ^ 63) (hy : y < 2 ^ 63) (hz : z < 2 ^ 63)
    {d rest : Text} (hd : scanNum .user .ld d = some (w, rest)) :
    sscanf .user ioFormat (numeral 10 x ++ colon :: (numeral 10 y ++ colon ::
        (numeral 10 z ++ colon :: d))) =
      .word x :: .word y :: .word z :: .word w :: sscanf .user [.lit colon, .str] rest := by
  simp only [ioFormat, segmentFormat, cons_append, nil_append, sscanf,
    scanNum_numeral hx (stops_colon _), scanNum_numeral hy (stops_colon _),
    scanNum_numeral hz (stops_colon _), hd, if_true]

/-- The text of one segment is scanned if the variables have room for the numbers. -/
theorem ioScan_text (o : IoObjects) (h : s.Ok) (v : IoVars) :
    ioScan o v s.text = if 8 ≤ o.number then
      some { v with
        sId := s.sId, blockId := s.blockId, blockOffset := s.blockOffset, size := s.size }
    else none := by
  have h1 := h.sId
  have h2 := h.blockId
  have h3 := h.blockOffset
  have h4 := h.size_le
  have hstops : Stops [] := by
    rintro b hb
    cases hb
  have hlast := scanNum_numeral (show s.size < 2 ^ 63 by omega) hstops
  rw [append_nil] at hlast
  have hnone : sscanf .user [.lit colon, .str] [] = [] := by
    rfl
  have hscan := sscanf_numerals (show s.sId < 2 ^ 63 by omega) (show s.blockId < 2 ^ 63 by omega)
    (show s.blockOffset < 2 ^ 63 by omega) hlast
  rw [hnone] at hscan
  simp only [ioScan, h.text_eq, hscan]
  simp [Arg.Fits, storeNumber, storeText, i64_natCast (show s.sId < 2 ^ 63 by omega),
    i64_natCast (show s.blockId < 2 ^ 63 by omega),
    i64_natCast (show s.blockOffset < 2 ^ 63 by omega), i64_natCast (show s.size < 2 ^ 63 by omega)]

/-- Of a text that goes on with another segment, the size that is scanned is too large. -/
theorem ioScan_size_ne {o : IoObjects} {s' : Segment} (h : s.Ok) (h' : s'.Ok) {v v' : IoVars}
    (hv : ioScan o v (s.text ++ (numeral 10 s'.sId ++ colon :: r)) = some v') :
    v'.size ≠ s.size := by
  have h1 := h.sId
  have h2 := h.blockId
  have h3 := h.blockOffset
  have h4 := h.size_le
  have h5 := h.size_pos
  have h6 := h'.sId
  have hlen : (numeral 10 s'.sId).length ≤ 4 := length_numeral_le (by decide) (by decide) (by omega)
  have hlen0 : (numeral 10 s'.sId).length ≠ 0 := fun h0 =>
    numeral_ne_nil 10 s'.sId (length_eq_zero_iff.1 h0)
  have hle : 10 ^ (numeral 10 s'.sId).length ≤ 10 ^ 4 := Nat.pow_le_pow_right (by decide) hlen
  have hge : 10 ^ 1 ≤ 10 ^ (numeral 10 s'.sId).length := Nat.pow_le_pow_right (by decide) (by omega)
  have hjoin : s.size * 10 ^ (numeral 10 s'.sId).length ≤ 4096 * 10 ^ 4 := Nat.mul_le_mul h4 hle
  have hjoin' : s.size * 10 ≤ s.size * 10 ^ (numeral 10 s'.sId).length := Nat.mul_le_mul_left _ hge
  have hscan := sscanf_numerals (show s.sId < 2 ^ 63 by omega) (show s.blockId < 2 ^ 63 by omega)
    (show s.blockOffset < 2 ^ 63 by omega)
    (scan_joined (show s.size * 10 ^ (numeral 10 s'.sId).length + s'.sId < 2 ^ 63 by omega)
      (stops_colon r))
  have htext : s.text ++ (numeral 10 s'.sId ++ colon :: r) = numeral 10 s.sId ++ colon ::
      (numeral 10 s.blockId ++ colon :: (numeral 10 s.blockOffset ++ colon ::
        (numeral 10 s.size ++ (numeral 10 s'.sId ++ colon :: r)))) := by
    rw [h.text_eq]
    simp only [append_assoc, cons_append]
  simp only [ioScan, htext, hscan] at hv
  split_ifs at hv
  obtain rfl := some.inj hv
  simp only [storeNumber, getElem?_cons_succ, getElem?_cons_zero]
  rw [i64_natCast (by omega)]
  omega

/-! ## The bytes of a reply -/

/-- The text of a reply. -/
def replyText (segs : List Segment) : Text := segs.flatMap Segment.text

theorem replyText_cons (s : Segment) (segs : List Segment) :
    replyText (s :: segs) = s.text ++ replyText segs :=
  flatMap_cons

/-- The segments are printed one behind another, and nothing else is written. -/
theorem encodeLoop_sameOff : ∀ (segs : List Segment) (m : Mem) (cnt : ℕ),
      Mem.SameOff m (encodeLoop m cnt segs) ((replyText segs).length + 1) (4 + cnt)
  | [], _, _ => fun _ _ => rfl
  | s :: segs, m, cnt => by
    have hlen : (replyText (s :: segs)).length = s.text.length + (replyText segs).length := by
      rw [replyText_cons, length_append]
    have h := encodeLoop_sameOff segs (m.blit (4 + cnt) (s.text ++ [0])) (cnt + s.text.length)
    have hblit := Mem.sameOff_blit m (4 + cnt) (s.text ++ [0])
    rw [length_append, length_singleton] at hblit
    rw [encodeLoop, hlen]
    exact (hblit.mono le_rfl (by omega)).trans (h.mono (by omega) (by omega))

theorem encodeLoop_bytes : ∀ (segs : List Segment) (m : Mem) (cnt : ℕ), segs ≠ [] →
      (encodeLoop m cnt segs).bytes ((replyText segs).length + 1) (4 + cnt) = replyText segs ++ [0]
  | [], _, _, h => absurd rfl h
  | [s], m, cnt, _ => by
    have h := Mem.bytes_blit m (4 + cnt) (s.text ++ [0])
    rw [length_append, length_singleton] at h
    simpa only [encodeLoop, replyText, flatMap_singleton] using h
  | s :: s' :: segs, m, cnt, _ => by
    have hlen : (replyText (s :: s' :: segs)).length + 1 =
        s.text.length + ((replyText (s' :: segs)).length + 1) := by
      rw [replyText_cons, length_append, Nat.add_assoc]
    have hrest := encodeLoop_bytes (s' :: segs) (m.blit (4 + cnt) (s.text ++ [0]))
      (cnt + s.text.length) (cons_ne_nil _ _)
    have hoff := encodeLoop_sameOff (s' :: segs) (m.blit (4 + cnt) (s.text ++ [0]))
      (cnt + s.text.length)
    have hfirst : (m.blit (4 + cnt) (s.text ++ [0])).bytes s.text.length (4 + cnt) = s.text := by
      have h := congrArg (List.take s.text.length) (Mem.bytes_blit m (4 + cnt) (s.text ++ [0]))
      rwa [Mem.bytes_take, length_append, take_left, Nat.min_eq_left (by omega)] at h
    rw [encodeLoop, hlen, Mem.bytes_add, Mem.bytes_congr (hoff.sameOn (Or.inl (by omega))), hfirst,
      Nat.add_assoc, hrest, replyText_cons s, append_assoc]

section reply

variable (m buf : Mem) (segs : List Segment)

/-- What the client's message holds once the reply has arrived. -/
theorem recvInto_reply : Mem.SameOn (encodeLoop m 0 segs)
    (recvInto buf ((encodeReply m segs).take searchMessageSize)) (4 + maxMessageLength) 0 := by
  rw [encodeReply, Mem.bytes_take]
  intro x h1 h2
  rw [recvInto, Mem.sameOn_blit_bytes _ buf _ 0 x h1 (h2.trans_le (by decide))]
  exact Mem.sameOff_store _ _ _ _ x (by omega)

/-- The client's `nums` is what the message of the request held there, as long as no text reaches
so far. -/
theorem mNums_reply (h : (replyText segs).length < clientMessageLength) :
    mNums (recvInto buf ((encodeReply m segs).take searchMessageSize)) clientMessageLength =
      mNums m clientMessageLength := by
  have h1 := Mem.load_congr ((recvInto_reply m buf segs).mono (Nat.zero_le _)
    (by decide : 4 + clientMessageLength + 4 ≤ 0 + (4 + maxMessageLength)))
  exact h1.trans (Mem.load_congr ((encodeLoop_sameOff segs m 0).sameOn (Or.inr (by omega))))

/-- The text of a reply in the client's message, up to a place inside `m_data`. -/
theorem bytes_reply (hne : segs ≠ []) {k : ℕ} (hk : k ≤ (replyText segs).length + 1)
    (hk' : k ≤ maxMessageLength) :
    (recvInto buf ((encodeReply m segs).take searchMessageSize)).bytes k 4 =
      (replyText segs ++ [0]).take k := by
  have h := congrArg (List.take k) (encodeLoop_bytes segs m 0 hne)
  rw [Mem.bytes_take, Nat.min_eq_left hk] at h
  rw [← h]
  exact Mem.bytes_congr ((recvInto_reply m buf segs).mono (Nat.zero_le _) (by omega))

end reply

/-! ## Which replies are decoded -/

theorem length_of_ioLoop {o : IoObjects} : ∀ {k : ℕ} {v : IoVars} {p : Text}
    {ns : List (ℤ × ℤ × ℤ × ℤ)}, ioLoop o k v p = some ns → ns.length = k
  | 0, _, _, _, h => by rw [← some.inj h, length_nil]
  | k + 1, v, p, ns, h => by
    obtain ⟨v', -, h⟩ := bind_eq_some_iff.1 h
    obtain ⟨ns', hns, rfl⟩ := map_eq_some_iff.1 h
    rw [length_cons, length_of_ioLoop hns]

section decode

variable (o : IoObjects) (m buf : Mem) (v : IoVars)

/-- A reply that arrives whole has to find room in the message. -/
theorem rdfsIo_reply (segs : List Segment) : rdfsIo o buf v (encodeReply m segs) =
      let r := recvInto buf ((encodeReply m segs).take searchMessageSize)
      if masterMessageSize ≤ o.message then
        ioLoop o (i32 (mNums r clientMessageLength)).toNat v (r.cString (searchMessageSize - 4) 4)
      else none := by
  have hlen : ((encodeReply m segs).take searchMessageSize).length = masterMessageSize := by
    rw [encodeReply, Mem.bytes_take, Mem.length_bytes]
    decide
  simp only [rdfsIo, hlen, ← not_le]
  split_ifs <;> rfl

theorem rdfsIo_nil_iff : rdfsIo o buf v (encodeReply m []) = some [] ↔
    masterMessageSize ≤ o.message ∧ i32 (mNums m clientMessageLength) ≤ 0 := by
  rw [rdfsIo_reply]
  dsimp only
  rw [mNums_reply m buf [] (by decide)]
  split_ifs with hroom
  · refine ⟨fun h => ⟨hroom, ?_⟩, fun h => ?_⟩
    · have := length_of_ioLoop h
      rw [length_nil] at this
      omega
    · rw [Int.toNat_of_nonpos h.2, ioLoop]
  · exact iff_of_false nofun fun h => hroom h.1

theorem rdfsIo_single_iff (h : s.Ok) : rdfsIo o buf v (encodeReply m [s]) = some [s.numbers] ↔
      masterMessageSize ≤ o.message ∧ 8 ≤ o.number ∧ i32 (mNums m clientMessageLength) = 1 := by
  have hlen := h.length_le
  have htext : replyText [s] = s.text := flatMap_singleton _ _
  have hnums := mNums_reply m buf [s] (by rw [htext, clientMessageLength]; omega)
  have hbytes := bytes_reply m buf [s] (cons_ne_nil _ _) le_rfl
    (by rw [htext, maxMessageLength]; omega)
  have hall : (s.text ++ [0]).take (s.text.length + 1) = s.text ++ [0] :=
    take_of_length_le (by rw [length_append, length_singleton])
  rw [htext, hall] at hbytes
  have hstring := Mem.cString_of_bytes hbytes h.zero_not_mem
    (by rw [searchMessageSize]; omega : s.text.length < searchMessageSize - 4)
  have hloop : ioLoop o 1 v s.text = if 8 ≤ o.number then some [s.numbers] else none := by
    rw [ioLoop, ioScan_text o h]
    split_ifs <;> rfl
  rw [rdfsIo_reply]
  dsimp only
  rw [hnums, hstring]
  by_cases hroom : masterMessageSize ≤ o.message
  · rw [if_pos hroom]
    by_cases hone : i32 (mNums m clientMessageLength) = 1
    · rw [hone, Int.toNat_one, hloop]
      by_cases hnumber : 8 ≤ o.number <;> simp [hroom]
    · refine iff_of_false (fun heq => hone ?_) fun h => hone h.2.2
      have := length_of_ioLoop heq
      rw [length_singleton] at this
      omega
  · rw [if_neg hroom]
    exact iff_of_false (some_ne_none _).symm fun h => hroom h.1

theorem rdfsIo_two_ne {s' : Segment} (h : s.Ok) (h' : s'.Ok) (segs : List Segment) :
    rdfsIo o buf v (encodeReply m (s :: s' :: segs)) ≠
      some ((s :: s' :: segs).map Segment.numbers) := by
  intro heq
  obtain ⟨r, hr⟩ : ∃ r, replyText (s :: s' :: segs) =
      (s.text ++ (numeral 10 s'.sId ++ [colon])) ++ r := by
    rw [replyText_cons, replyText_cons, h'.text_eq]
    simp only [append_assoc]
    exact ⟨_, rfl⟩
  have hlen := h.length_le
  have hlen' : (numeral 10 s'.sId).length ≤ 4 :=
    length_numeral_le (by decide) (by decide) (h'.sId.trans (by decide))
  generalize ht : s.text ++ (numeral 10 s'.sId ++ [colon]) = t
  have htlen : t.length ≤ 33 := by
    rw [← ht, length_append, length_append, length_singleton]
    omega
  have h0 : 0 ∉ t := by
    rw [← ht, mem_append, mem_append, not_or, not_or]
    exact ⟨h.zero_not_mem, zero_not_mem_numeral _, by decide⟩
  rw [ht] at hr
  have hbytes := bytes_reply m buf (s :: s' :: segs) (cons_ne_nil _ _)
    (by rw [hr, length_append]; omega : t.length ≤ _) (by rw [maxMessageLength]; omega)
  rw [hr, append_assoc, take_left] at hbytes
  obtain ⟨q, hq⟩ := Mem.cString_of_prefix hbytes h0
    (by rw [searchMessageSize]; omega : t.length ≤ searchMessageSize - 4)
  rw [rdfsIo_reply] at heq
  dsimp only at heq
  split_ifs at heq
  rw [hq, length_of_ioLoop heq |>.symm, map_cons, length_cons, ioLoop] at heq
  obtain ⟨v', hv', heq⟩ := bind_eq_some_iff.1 heq
  obtain ⟨ns, -, heq⟩ := map_eq_some_iff.1 heq
  have hsplit : t ++ q = s.text ++ (numeral 10 s'.sId ++ colon :: q) := by
    rw [← ht]
    simp only [append_assoc, cons_append, nil_append]
  rw [hsplit] at hv'
  exact ioScan_size_ne h h' hv' (congrArg (fun p => p.2.2.2) (cons.inj heq).1)

end decode

/-- A reply is decoded if and only if the client's message has room for it, and it has no segment,
and the client finds no positive number where it looks for one, or it has one, the client's
variables have room for the numbers, and it finds the number 1. -/
theorem decode_iff (o : IoObjects) (m buf : Mem) (v : IoVars) {segs : List Segment}
    (hok : ∀ s ∈ segs, s.Ok) :
    rdfsIo o buf v (encodeReply m segs) = some (segs.map Segment.numbers) ↔
      masterMessageSize ≤ o.message ∧ ((segs = [] ∧ i32 (mNums m clientMessageLength) ≤ 0) ∨
        ((∃ s, segs = [s]) ∧ 8 ≤ o.number ∧ i32 (mNums m clientMessageLength) = 1)) := by
  match segs, hok with
  | [], _ => simpa using rdfsIo_nil_iff o m buf v
  | [s], hok => simpa using rdfsIo_single_iff o m buf v (hok s mem_cons_self)
  | s :: s' :: segs, hok =>
    have hne := rdfsIo_two_ne o m buf v (hok s (by simp)) (hok s' (by simp)) segs
    simpa using hne

/-! ## The segments of a request -/

theorem blockRange_bounds (stop : ℕ) :
    ∀ (fuel i : ℕ), ∀ p ∈ blockRange stop fuel i, p.2.1 < 4096 ∧ 0 < p.2.2 ∧ p.2.2 ≤ 4096
  | 0, _, p, hp => by cases hp
  | fuel + 1, i, p, hp => by
    rw [blockRange_succ] at hp
    split_ifs at hp with hi
    · rcases mem_cons.1 hp with rfl | hp
      · dsimp only
        omega
      · exact blockRange_bounds stop fuel _ p hp
    · cases hp

/-- The numbers of every segment of a request are in their ranges. -/
theorem blockRequests_ok {k : KernelMap} {m : Mem} {iVirtAddr pos length : ℕ}
    (h : s.request ∈ blockRequests k m iVirtAddr pos length) : s.Ok := by
  obtain ⟨p, hp, heq⟩ := List.mem_map.1 h
  obtain ⟨hmeta, hrest⟩ := Prod.mk.inj heq
  obtain ⟨pa, -, hpte⟩ := map_eq_some_iff.1 hmeta
  have hlt := decodePte_lt (m.load 8 pa)
  obtain ⟨hoff, hpos, hle⟩ := blockRange_bounds _ _ _ p hp
  rw [hpte] at hlt
  rw [hrest] at hoff hpos hle
  exact ⟨hlt.1, hlt.2, hoff, hpos, hle⟩

/-- For every request and every reply to it : the client does not decode the segments, since the
reply is larger than its message. With more room it decodes them if and only if there is none and
its `nums` is not positive, or there is one, its variables are of 8 bytes and its `nums` is 1. The
client's `nums` is what stood there in the message of the request. -/
theorem clientReply_not_decoded {sb : Super} {cpu : ℕ} {g g' : Master} {inode inode' : Inode}
    {offset length phys : ℕ} {segs : List Segment}
    (hr : rdfsClientSearchMetadata sb cpu g inode offset length phys =
      (0, segs.map Segment.request, inode', g')) (m buf : Mem) (v : IoVars) :
    rdfsIo ioObjects buf v (encodeReply m segs) ≠ some (segs.map Segment.numbers) ∧
    ∀ o, rdfsIo o buf v (encodeReply m segs) = some (segs.map Segment.numbers) ↔
      masterMessageSize ≤ o.message ∧ ((segs = [] ∧ i32 (mNums m clientMessageLength) ≤ 0) ∨
        ((∃ s, segs = [s]) ∧ 8 ≤ o.number ∧ i32 (mNums m clientMessageLength) = 1)) := by
  have hok : ∀ s ∈ segs, s.Ok := by
    intro s hs
    have hmem : s.request ∈ segs.map Segment.request := List.mem_map_of_mem hs
    rw [rdfsClientSearchMetadata] at hr
    split_ifs at hr
    · rw [← (Prod.mk.inj (Prod.mk.inj hr).2).1] at hmem
      cases hmem
    · rw [← (Prod.mk.inj (Prod.mk.inj hr).2).1] at hmem
      exact blockRequests_ok hmem
  refine ⟨fun h => ?_, fun o => decode_iff o m buf v hok⟩
  have hroom := ((decode_iff ioObjects m buf v hok).1 h).1
  exact absurd hroom (by decide)

/-- The kernel's table leads to words that are all 1. -/
def mappedMaster : Master :=
  { noBlocks with
    nvm := { noBlocks.nvm with mem := fun x => if x % 8 = 0 then 1 else 0 }
    kernel := ⟨fun _ => 0, fun _ => 4096⟩ }

/-- A client reads the first byte of a file, and the memory of its message holds the number 1. It
would decode the segment with more room. -/
theorem clientReply_not_decoded_oneByte :
    (rdfsClientSearchMetadata oneNode 0 mappedMaster twoBlocks 0 1 0).2.1 =
      [Segment.request ⟨0, 0, 0, 1⟩] ∧
    (let bs := encodeReply (Mem.store (fun _ => 0) 4 1028 1) [⟨0, 0, 0, 1⟩]
    rdfsIo ioObjects (fun _ => 0) ⟨0, 0, 0, 0, []⟩ bs ≠ some [(0, 0, 0, 1)] ∧
      rdfsIo ⟨4104, 8, 1000⟩ (fun _ => 0) ⟨0, 0, 0, 0, []⟩ bs = some [(0, 0, 0, 1)]) := by
  have hsegs : (rdfsClientSearchMetadata oneNode 0 mappedMaster twoBlocks 0 1 0).2.1 =
      [(⟨0, 0, 0, 1⟩ : Segment)].map Segment.request := by decide
  obtain ⟨⟨e, reqs, inode', g'⟩, hr⟩ : ∃ r,
    rdfsClientSearchMetadata oneNode 0 mappedMaster twoBlocks 0 1 0 = r := ⟨_, rfl⟩
  have he : (rdfsClientSearchMetadata oneNode 0 mappedMaster twoBlocks 0 1 0).1 = 0 := by decide
  rw [hr] at hsegs he
  obtain rfl : e = 0 := he
  obtain rfl : reqs = _ := hsegs
  refine ⟨by rw [hr]; rfl, (clientReply_not_decoded hr _ _ _).1,
    ((clientReply_not_decoded hr _ _ _).2 _).2 ⟨le_rfl, .inr ⟨⟨_, rfl⟩, le_rfl, ?_⟩⟩⟩
  decide +kernel

/-- A client reads 4097 bytes from the beginning of a file : it never decodes the two segments,
whatever the message and its variables hold, and however large they are. -/
theorem two_segments_not_decoded :
    (rdfsClientSearchMetadata oneNode 0 mappedMaster twoBlocks 0 4097 0).1 = 0 ∧
    (rdfsClientSearchMetadata oneNode 0 mappedMaster twoBlocks 0 4097 0).2.1 =
      [Segment.request ⟨0, 0, 0, 4096⟩, Segment.request ⟨0, 0, 0, 1⟩] ∧
    ∀ o m buf v, rdfsIo o buf v (encodeReply m [⟨0, 0, 0, 4096⟩, ⟨0, 0, 0, 1⟩]) ≠
      some [(0, 0, 0, 4096), (0, 0, 0, 1)] := by
  refine ⟨by decide, by decide, fun o m buf v => ?_⟩
  exact rdfsIo_two_ne o m buf v ⟨by decide, by decide, by decide, by decide, by decide⟩
    ⟨by decide, by decide, by decide, by decide, by decide⟩ []

end Rdfs
