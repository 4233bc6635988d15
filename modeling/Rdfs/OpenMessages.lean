import Mathlib.Data.List.TakeWhile
import Rdfs.MasterStream

/-!
# The path of a file that is opened

`rdfsOpenFile` prints flags, mode and path into a message for the server, and the path alone into a
second one for the master. Both read the path with `%s`, into a buffer of `RDFS_FILE_PATH_LENGTH`
bytes. What fits in the message of the client fits there, but `%s` reads a word : a path that is
empty or has white space in it is not read back (`openDecodes_iff`). The kernel of the master counts
one more byte as white space than the server does.
-/

namespace Rdfs

open List

/-! ## The code -/

/-- `RDFS_FILE_PATH_LENGTH`, of the server and of the master. -/
def rdfsFilePathLength : ℕ := 1024

/-- `flag`, `mode` and `filename` as `rdfs_client_open` of the server scans them. -/
def serverOpenArgs (m : Mem) : List Arg := sscanf .user openFormat (mText m networkBuffLength)

/-- `filename` as `rdfs_client_open` of the master scans it. -/
def masterOpenArgs (m : Mem) : List Arg := sscanf .kernel [.str] (mText m maxMessageLength)

/-- Whatever the buffers of the client, the server and the master hold, the server scans the flags,
the mode `0644` and the path, and the master scans the path; it fits in `filename`. -/
def OpenDecodes (flags : BitVec 32) (path : Text) : Prop :=
  (∀ buf buf' : Mem,
    serverOpenArgs (recvInto buf' (request ((ClientCall.openFile flags path).message buf))) =
      [.word flags.toNat, .word 420, .text path]) ∧
  (∀ buf buf' : Mem,
    masterOpenArgs (recvInto (clearData buf' maxMessageLength)
      ((MasterCall.openFile path).message buf)) = [.text path]) ∧
  path.length < rdfsFilePathLength

/-! ## Words -/

/-- `%s` reads a text back exactly if it is a word. -/
theorem sscanf_str_iff (lib : Libc) (t : Text) :
    sscanf lib [.str] t = [.text t] ↔ t ≠ [] ∧ ∀ b ∈ t, isSpace lib b = false := by
  rw [sscanf]
  constructor
  · intro h
    split_ifs at h with hw
    obtain ⟨htext, -⟩ := cons.inj h
    have hword := Arg.text.inj htext
    refine ⟨?_, fun b hb => ?_⟩
    · rintro rfl
      exact hw ⟨rfl, Or.inr rfl⟩
    · rw [← hword] at hb
      simpa using mem_takeWhile_imp hb
  · rintro ⟨hne, hword⟩
    have hdrop : t.dropWhile (isSpace lib) = t := by
      rw [dropWhile_eq_self_iff]
      intro hpos
      simp [hword _ (getElem_mem hpos)]
    have htake : t.takeWhile (fun b => !isSpace lib b) = t :=
      takeWhile_eq_self_iff.2 fun b hb => by simp [hword b hb]
    have hend : sscanf lib [] [] = [] := by
      rfl
    rw [hdrop, htake, if_neg fun h => hne h.1, drop_length, hend]

/-- White space of the server is white space of the kernel. -/
theorem isSpace_user_of_kernel {b : UInt8} (h : isSpace .kernel b = false) :
    isSpace .user b = false := by
  simp only [isSpace, decide_eq_false_iff_not, not_or] at h ⊢
  exact ⟨h.1, h.2.1, by simp⟩

/-- The text of the message for the server. -/
def openText (flags : BitVec 32) (path : Text) : Text :=
  sprintf openFormat [.word flags.toNat, .word 420, .text path]

theorem openText_eq (flags : BitVec 32) (path : Text) : openText flags path =
    Conv.d.print flags.toNat ++ colon :: (Conv.d.print 420 ++ colon :: path) := by
  simp [openText, openFormat, sprintf]

theorem zero_notMem_openText {path : Text} (flags : BitVec 32) (h0 : 0 ∉ path) :
    0 ∉ openText flags path := by
  have hcolon : (0 : UInt8) ≠ colon := by decide
  simp [openText_eq, Conv.ok_d.zero_not_mem_print, hcolon, h0]

/-- What the server scans in the text that the client prints. -/
theorem sscanf_openText (flags : BitVec 32) (path : Text) :
    sscanf .user openFormat (openText flags path) =
      .word flags.toNat :: .word 420 :: sscanf .user [.str] path := by
  have hstops : ∀ t : Text, Stops (colon :: t) := fun t b hb => by
    obtain rfl := Option.some_inj.1 hb
    decide
  rw [openText_eq, openFormat, sscanf, scanNum_print Conv.ok_d .user flags.isLt (hstops _)]
  dsimp only
  rw [sscanf, if_pos rfl, sscanf, scanNum_print Conv.ok_d .user (by decide) (hstops _)]
  dsimp only
  rw [sscanf, if_pos rfl]

/-! ## Messages -/

/-- The server finds in its message the text that the client has printed. -/
theorem mText_request {flags : BitVec 32} {path : Text} (h0 : 0 ∉ path)
    (hlen : (openText flags path).length < clientMessageLength) (buf buf' : Mem) :
    mText (recvInto buf' (request ((ClientCall.openFile flags path).message buf)))
      networkBuffLength = openText flags path := by
  have hwhole := recvInto_whole (printData (setType buf rdfsClientOpen) (openText flags path)) buf'
    (show 4 + networkBuffLength ≤ clientMessageSize by decide)
    (show 4 + networkBuffLength ≤ serverMessageSize by decide)
  exact hwhole.2.trans (mText_printData _ (zero_notMem_openText flags h0) hlen)

/-- The master finds in its message the path. -/
theorem mText_masterCall {path : Text} (h0 : 0 ∉ path) (hlen : path.length < clientMessageLength)
    (buf buf' : Mem) :
    mText (recvInto buf' ((MasterCall.openFile path).message buf)) maxMessageLength = path := by
  unfold clientMessageLength at hlen
  have hsame := Mem.sameOn_blit_bytes (printData (setType buf rdfsClientOpen) path) buf'
    clientMessageSize 0
  have hbytes := Mem.bytes_congr (hsame.mono (by decide)
    (show 4 + (path.length + 1) ≤ 0 + clientMessageSize by unfold clientMessageSize; omega))
  have hprint := Mem.bytes_blit (setType buf rdfsClientOpen) 4 (path ++ [0])
  rw [length_append, length_singleton] at hprint
  exact Mem.cString_of_bytes (hbytes.trans hprint) h0 (by unfold maxMessageLength; omega)

/-- For a path without the byte 0 that fits in the message of the client, the server and the master
decode the flags, the mode and the path exactly if the path is a word of the kernel : it is not
empty and has no white space. -/
theorem openDecodes_iff {flags : BitVec 32} {path : Text} (h0 : 0 ∉ path)
    (hlen : (openText flags path).length < clientMessageLength) :
    OpenDecodes flags path ↔ path ≠ [] ∧ ∀ b ∈ path, isSpace .kernel b = false := by
  have hpath : path.length < clientMessageLength := by
    rw [openText_eq] at hlen
    simp only [length_append, length_cons] at hlen
    omega
  have hmaster : (∀ buf buf' : Mem, masterOpenArgs (recvInto (clearData buf' maxMessageLength)
      ((MasterCall.openFile path).message buf)) = [.text path]) ↔
      path ≠ [] ∧ ∀ b ∈ path, isSpace .kernel b = false := by
    simp only [masterOpenArgs, mText_masterCall h0 hpath, sscanf_str_iff]
    exact ⟨fun h => h 0 0, fun h _ _ => h⟩
  unfold OpenDecodes
  rw [hmaster]
  refine ⟨fun h => h.2.1, fun h => ⟨fun buf buf' => ?_, h, hpath⟩⟩
  rw [serverOpenArgs, mText_request h0 hlen, sscanf_openText, (sscanf_str_iff .user path).2]
  exact ⟨h.1, fun b hb => isSpace_user_of_kernel (h.2 b hb)⟩

/-- `/mnt/a` opened with `O_RDWR`. -/
theorem openDecodes_word : OpenDecodes 2 [47, 109, 110, 116, 47, 97] :=
  (openDecodes_iff (by decide) (by decide)).2 ⟨by simp, by simp [isSpace]⟩

/-- `/a b` : the server and the master read `/a`. -/
theorem path_with_blank_cut : sscanf .user openFormat (openText 2 [47, 97, 32, 98]) =
        [.word 2, .word 420, .text [47, 97]] ∧
      sscanf .kernel [.str] [47, 97, 32, 98] = [.text [47, 97]] ∧
      ¬OpenDecodes 2 [47, 97, 32, 98] := by
  have hkernel : sscanf .kernel [.str] [47, 97, 32, 98] = [.text [47, 97]] := by decide
  have huser : sscanf .user [.str] [47, 97, 32, 98] = [.text [47, 97]] := by decide
  refine ⟨by rw [sscanf_openText, huser]; rfl, hkernel, fun h => ?_⟩
  have hmaster := h.2.1 0 0
  rw [masterOpenArgs, mText_masterCall (by decide) (by decide), hkernel] at hmaster
  exact absurd hmaster (by decide)

end Rdfs
