import Rdfs.Bytes
import Rdfs.Text

/-!
# Messages

The programs exchange `struct rdfs_message` as it lies in memory : `m_type` in four bytes, then
`m_data`, then, in the master and in the client, `nums`. Each program has its own
`MAX_MESSAGE_LENGTH`, so that the same bytes are different structures on the two sides of a
connection. `recv` stores the bytes that arrive over the front of a buffer, and leaves what the
buffer held behind them.
-/

namespace Rdfs

/-! ## Bytes and texts in memory -/

variable {m : Mem} {n a : ℕ} {t : Text}

namespace Mem

/-- The text at `a` in an object that has `n` bytes left there. -/
def cString (m : Mem) (n a : ℕ) : Text := (m.bytes n a).takeWhile (· ≠ 0)

theorem cString_congr {m' : Mem} (h : SameOn m m' n a) : m'.cString n a = m.cString n a := by
  rw [cString, cString, bytes_congr h]

/-- A text with its end is the text there. -/
theorem cString_of_bytes (h : m.bytes (t.length + 1) a = t ++ [0]) (h0 : 0 ∉ t) (hn : t.length < n)
    : m.cString n a = t := by
  have hne : ∀ b ∈ t, decide (b ≠ 0) = true := fun b hb =>
    decide_eq_true fun h => h0 (h ▸ hb)
  rw [cString, show n = t.length + 1 + (n - (t.length + 1)) by omega, bytes_add, h,
    List.append_assoc, List.takeWhile_append_of_pos hne]
  simp

/-- A text begins with the bytes that are there. -/
theorem cString_of_prefix (h : m.bytes t.length a = t) (h0 : 0 ∉ t) (hn : t.length ≤ n) :
    ∃ r, m.cString n a = t ++ r := by
  have hne : ∀ b ∈ t, decide (b ≠ 0) = true := fun b hb =>
    decide_eq_true fun h => h0 (h ▸ hb)
  rw [cString, show n = t.length + (n - t.length) by omega, bytes_add, h,
    List.takeWhile_append_of_pos hne]
  exact ⟨_, rfl⟩

theorem cString_blit (m : Mem) (h0 : 0 ∉ t) (hn : t.length < n) :
    (m.blit a (t ++ [0])).cString n a = t := by
  have h := bytes_blit m a (t ++ [0])
  rw [List.length_append, List.length_singleton] at h
  exact cString_of_bytes h h0 hn

theorem cString_of_zero (n : ℕ) (h : m a = 0) : m.cString n a = [] := by
  cases n with
  | zero => rfl
  | succ n =>
    rw [cString, Nat.add_comm, bytes_add]
    simp [bytes, h]

end Mem

/-! ## `struct rdfs_message` -/

/-- `MAX_MESSAGE_LENGTH` of the master and of a slave. -/
def maxMessageLength : ℕ := 4096

/-- `MAX_MESSAGE_LENGTH` of a client. -/
def clientMessageLength : ℕ := 1024

/-- The size of `struct rdfs_message` of the master. -/
def masterMessageSize : ℕ := 4104

/-- The size of `struct rdfs_message` of a slave, which has no `nums`. -/
def slaveMessageSize : ℕ := 4100

/-- The size of `struct rdfs_message` of a client. -/
def clientMessageSize : ℕ := 1032

/-- `m_type`. -/
def mType (m : Mem) : ℕ := m.load 4 0

/-- The text in `m_data`, which has `len` bytes. -/
def mText (m : Mem) (len : ℕ) : Text := m.cString len 4

/-- `nums`, behind the `len` bytes of `m_data`. -/
def mNums (m : Mem) (len : ℕ) : ℕ := m.load 4 (4 + len)

/-- A buffer once `m_data` is cleared. -/
def clearData (m : Mem) (len : ℕ) : Mem := m.fill len 4 0

/-- A buffer once `m_type` is set. -/
def setType (m : Mem) (type : ℕ) : Mem := m.store 4 0 type

/-- A buffer once a text is printed to `m_data`. -/
def printData (m : Mem) (t : Text) : Mem := m.blit 4 (t ++ [0])

/-- A buffer once `recv` has stored the bytes that arrive. -/
def recvInto (m : Mem) (bs : List UInt8) : Mem := m.blit 0 bs

theorem mType_setType (m : Mem) {type : ℕ} (h : type < 2 ^ 32) : mType (setType m type) = type :=
  Mem.load_store_of_lt m 0 (by exact h)

theorem mType_printData (m : Mem) (t : Text) : mType (printData m t) = mType m :=
  Mem.load_congr ((Mem.sameOff_blit m 4 _).sameOn (Or.inl le_rfl))

theorem mText_printData (m : Mem) {len : ℕ} (h0 : 0 ∉ t) (hlen : t.length < len) :
    mText (printData m t) len = t :=
  Mem.cString_blit m h0 hlen

theorem mText_clearData (m : Mem) {len : ℕ} (h : len ≠ 0) : mText (clearData m len) len = [] :=
  Mem.cString_of_zero len (if_pos (by omega))

theorem mText_setType (m : Mem) (type len : ℕ) : mText (setType m type) len = mText m len :=
  Mem.cString_congr ((Mem.sameOff_store m 4 0 type).sameOn (Or.inr le_rfl))

/-- A message that arrives whole, or at least as far as the receiver's structure goes. -/
theorem recvInto_whole (m buf : Mem) {n size len : ℕ} (hn : 4 + len ≤ n) (hsize : 4 + len ≤ size) :
    mType (recvInto buf ((m.bytes n 0).take size)) = mType m ∧
      mText (recvInto buf ((m.bytes n 0).take size)) len = mText m len := by
  have hsame : Mem.SameOn m (recvInto buf ((m.bytes n 0).take size)) (4 + len) 0 := by
    rw [Mem.bytes_take]
    exact (Mem.sameOn_blit_bytes m buf (min size n) 0).mono le_rfl (by omega)
  exact ⟨Mem.load_congr (hsame.mono le_rfl (by omega)),
    Mem.cString_congr (hsame.mono (by omega) (by omega))⟩

end Rdfs
