import Mathlib.Algebra.Order.BigOperators.Group.List
import Mathlib.Algebra.Order.Ring.Nat

/-!
# Scanning an archive for compressed members

An artifact is worth compressing unless most of it is compressed already. The scan adds up the
members that have the signature of a compressed format and, on the other side, what cannot count:
headers and members without a signature. It **gives up** once the second sum is over its budget.

The budget is a rounded tenth of the blob, but giving up never changes the verdict: what the
rounding leaves out is less than the closing blocks of the archive (`scanTar_exact`).
-/

namespace Heph.Sniff

/-- `Signature`. -/
structure Signature where
  offset : ℕ
  magic : List UInt8
  label : String

/-- The bytes of an ASCII text. -/
def ascii (s : String) : List UInt8 := s.toUTF8.toList

/-- `SIGNATURES`. -/
def signatures : List Signature :=
  [⟨0, [0x1f, 0x8b], "gzip"⟩, ⟨0, [0x28, 0xb5, 0x2f, 0xfd], "zstd"⟩,
    ⟨0, 0xfd :: ascii "7zXZ" ++ [0], "xz"⟩, ⟨0, ascii "BZh", "bzip2"⟩,
    ⟨0, [0x04, 0x22, 0x4d, 0x18], "lz4"⟩, ⟨0, ascii "PK" ++ [3, 4], "zip"⟩,
    ⟨0, ascii "7z" ++ [0xbc, 0xaf, 0x27, 0x1c], "7z"⟩, ⟨0, ascii "Rar!" ++ [0x1a, 7], "rar"⟩,
    ⟨0, 0x89 :: ascii "PNG\r\n" ++ 0x1a :: ascii "\n", "png"⟩, ⟨0, [0xff, 0xd8, 0xff], "jpeg"⟩,
    ⟨0, ascii "GIF8", "gif"⟩, ⟨0, ascii "OggS", "ogg"⟩, ⟨0, ascii "fLaC", "flac"⟩,
    ⟨8, ascii "WEBP", "webp"⟩, ⟨4, ascii "ftyp", "mp4"⟩, ⟨0, ascii "wOFF", "woff"⟩,
    ⟨0, ascii "wOF2", "woff2"⟩]

/-- `match_signature`. -/
def matchSignature (head : List UInt8) : Option String :=
  (signatures.find? fun s => s.magic.isPrefixOf (head.drop s.offset)).map (·.label)

/-- A member of the archive. -/
structure Member where
  isFile : Bool
  data : List UInt8

/-- The format of a member: files of at least `MIN_MEMBER_BYTES` are looked at, by their first
`PEEK_LEN` bytes. -/
def Member.matched (m : Member) : Option String :=
  if m.isFile ∧ 4 * 1024 ≤ m.data.length then matchSignature (m.data.take 12) else none

def satAdd (a b : ℕ) : ℕ := min (a + b) (2 ^ 64 - 1)

def satMul (a b : ℕ) : ℕ := min (a * b) (2 ^ 64 - 1)

/-- What the scan has added up. -/
structure Scan where
  rejected : ℕ := 0
  incompressible : ℕ := 0
  byLabel : List (String × ℕ) := []

/-- The bytes of a format are added to its entry, or are the first. -/
def count (label : String) (size : ℕ) : List (String × ℕ) → List (String × ℕ)
  | [] => [(label, size)]
  | e :: l => if e.1 = label then (e.1, satAdd e.2 size) :: l else e :: count label size l

/-- The loop of `scan_tar` over the members, with what it gives up at. -/
def scan (stops : ℕ → Bool) (s : Scan) : List Member → Scan
  | [] => s
  | m :: ms =>
    let rejected := satAdd s.rejected 512
    match m.matched with
    | some label =>
      scan stops ⟨rejected, satAdd s.incompressible m.data.length,
        count label m.data.length s.byLabel⟩ ms
    | none =>
      let s := { s with rejected := satAdd rejected m.data.length }
      if stops s.rejected then s else scan stops s ms

/-- `Verdict`. -/
structure Verdict where
  precompressed : Bool
  incompressibleBytes : ℕ
  dominant : Option String

/-- What `scan_tar` concludes; of the formats with the most bytes the last is taken. -/
def verdict (blobSize : ℕ) (s : Scan) : Verdict where
  precompressed := 0 < blobSize ∧ satMul blobSize 90 ≤ satMul s.incompressible 100
  incompressibleBytes := s.incompressible
  dominant := (s.byLabel.reverse.maxOn? (·.2)).map (·.1)

/-- `scan_tar`. -/
def scanTar (ms : List Member) (blobSize : ℕ) : Verdict :=
  verdict blobSize (scan (blobSize / 100 * (100 - 90) < ·) {} ms)

/-- The scan of all the members. -/
def walkTar (ms : List Member) (blobSize : ℕ) : Verdict :=
  verdict blobSize (scan (fun _ => false) {} ms)

/-- A header for each member, and its data in whole blocks. -/
def volume (ms : List Member) : ℕ :=
  (ms.map fun m => 512 + (m.data.length + 511) / 512 * 512).sum

/-- The size of an archive with its closing blocks. -/
def archiveSize (ms : List Member) (closing : ℕ) : ℕ := volume ms + closing * 512

/-- The data of the members with a signature. -/
def payload (ms : List Member) : ℕ :=
  (ms.map fun m => if m.matched.isSome then m.data.length else 0).sum

variable {stops : ℕ → Bool} {s : Scan} {ms : List Member}

theorem payload_le_volume : payload ms ≤ volume ms := by
  refine List.sum_le_sum fun m _ => ?_
  split <;> omega

/-- **The scan counts the data with a signature**, all of it unless it gives up; what has been
rejected by then is not among that data. -/
theorem scan_incompressible (h : s.rejected + s.incompressible + volume ms < 2 ^ 64) :
    (scan stops s ms).incompressible = s.incompressible + payload ms ∨
      (scan stops s ms).incompressible ≤ s.incompressible + payload ms ∧
        ∃ r, stops r = true ∧ r + payload ms ≤ s.rejected + volume ms := by
  induction ms generalizing s with
  | nil => exact .inl rfl
  | cons m ms ih =>
    have hle : payload ms ≤ volume ms := payload_le_volume
    have hvol : volume (m :: ms) = 512 + (m.data.length + 511) / 512 * 512 + volume ms := by
      simp [volume]
    have hadd : ∀ {a b}, a + b < 2 ^ 64 → satAdd a b = a + b := fun h => min_eq_left (by omega)
    rw [scan]
    cases hm : m.matched with
    | some label =>
      have hpay : payload (m :: ms) = m.data.length + payload ms := by simp [payload, hm]
      dsimp only
      rw [hadd (by omega), hadd (by omega)]
      rcases ih (s := ⟨s.rejected + 512, s.incompressible + m.data.length,
        count label m.data.length s.byLabel⟩) (by dsimp only; omega) with hall | ⟨hsome, r, hr, hle⟩
      · exact .inl (hall.trans (by dsimp only; omega))
      · dsimp only at hsome hle
        exact .inr ⟨by omega, r, hr, by omega⟩
    | none =>
      have hpay : payload (m :: ms) = payload ms := by simp [payload, hm]
      dsimp only
      rw [hadd (a := s.rejected) (by omega), hadd (by omega)]
      split
      · next hstop => exact .inr ⟨by dsimp only; omega, _, hstop, by omega⟩
      · rcases ih (s := { s with rejected := s.rejected + 512 + m.data.length })
          (by dsimp only; omega) with hall | ⟨hsome, r, hr, hle⟩
        · exact .inl (hall.trans (by rw [hpay]))
        · dsimp only at hsome hle
          exact .inr ⟨by omega, r, hr, by omega⟩

/-- **The verdict is that of the scan of all the members.** -/
theorem scanTar_exact (ms : List Member) (closing : ℕ) (hclosing : 2 ≤ closing)
    (hsize : archiveSize ms closing < 2 ^ 57) :
    (scanTar ms (archiveSize ms closing)).precompressed =
      (walkTar ms (archiveSize ms closing)).precompressed := by
  have hn : volume ms + 1024 ≤ archiveSize ms closing := by
    rw [archiveSize]
    omega
  generalize archiveSize ms closing = n at hsize hn ⊢
  have hscan := fun stops => @scan_incompressible stops {} ms (by dsimp only; omega)
  simp only [zero_add] at hscan
  have hmul : ∀ {a b}, a < 2 ^ 57 → b ≤ 100 → satMul a b = a * b := fun ha hb =>
    min_eq_left ((Nat.mul_le_mul ha.le hb).trans (by decide))
  have hwalk : (scan (fun _ => false) {} ms).incompressible = payload ms := by
    rcases hscan fun _ => false with hall | ⟨-, r, hr, -⟩
    · exact hall
    · cases hr
  rw [scanTar, walkTar, verdict, verdict, hwalk]
  rcases hscan (n / 100 * (100 - 90) < ·) with hall | ⟨hsome, r, hr, hle⟩
  · rw [hall]
  · -- the bar is out of reach by then
    rw [decide_eq_true_eq] at hr
    rw [hmul hsize (by omega), hmul (by omega) (by omega), hmul (by omega) (by omega)]
    rw [decide_eq_false (by omega), decide_eq_false (by omega)]

/-- The scan gives up at the first of two small members. -/
theorem scanTar_exact_small : archiveSize [⟨true, [0x1f, 0x8b]⟩, ⟨true, []⟩] 2 = 2560 ∧
    (scanTar [⟨true, [0x1f, 0x8b]⟩, ⟨true, []⟩] 2560).precompressed =
      (walkTar [⟨true, [0x1f, 0x8b]⟩, ⟨true, []⟩] 2560).precompressed :=
  ⟨by decide, scanTar_exact [⟨true, [0x1f, 0x8b]⟩, ⟨true, []⟩] 2 (by decide) (by decide)⟩

end Heph.Sniff
