/-
The hash of a URI, in 32 bits and over the integers.

Every node places a key where `pseudo_hash` puts it, and so must whoever checks the nodes:
`test/dht.py` has the same hash in integers that have no width.  The two agree as long as no
addition of the loop wraps around, and in a text of 131072 bytes there are not enough words
for that.  A URI is cut out of a buffer of `HTTP_MAX_SIZE` bytes.
-/
import ChordDht.Lib.Checksum
import ChordDht.Chord.InPlace

namespace ChordDht.Chord

/-- `hash` of `test/dht.py`.  On its integers `& 0xffff` is the remainder by `2 ^ 16`, also of a
negative number, `>> 16` is the quotient, and `~h` is `-h - 1`. -/
def dhtHash (data : Bytes) : ℤ :=
  let data := if data.length % 2 = 1 then data ++ [0] else data
  let hashVal := foldOnce (wordSum data)
  (-(hashVal : ℤ) - 1) % 2 ^ 16

/-- No addition of the loop of `pseudo_hash` wraps around. -/
def NeverWraps (hash : UInt32) : Bytes → Prop
  | hi :: lo :: rest =>
      hash.toNat + (hi.toNat * 256 + lo.toNat) < 2 ^ 32 ∧
        NeverWraps (hash + (hi.toUInt32 <<< (8 : UInt32) ||| lo.toUInt32)) rest
  | _ => True

/-- What the loop runs over. -/
def padded (buffer : Bytes) : Bytes := if buffer.length % 2 = 1 then buffer ++ [0] else buffer

theorem padded_even (buffer : Bytes) : (padded buffer).length % 2 = 0 := by
  unfold padded
  split_ifs with hodd
  · rw [List.length_append, List.length_singleton]
    omega
  · omega

theorem wordSum_padded (buffer : Bytes) : wordSum (padded buffer) = wordSum buffer := by
  unfold padded
  split_ifs
  · exact wordSum_pad buffer
  · rfl

/-- With room for the sum, the loop never wraps and comes to the sum. -/
theorem hashWords_exact {words : Bytes} (heven : words.length % 2 = 0) (hash : UInt32)
    (hroom : hash.toNat + wordSum words < 2 ^ 32) :
    NeverWraps hash words ∧ (hashWords hash words).toNat = hash.toNat + wordSum words := by
  induction words using wordSum.induct generalizing hash with
  | case1 hi lo rest ih =>
      rw [wordSum] at hroom
      rw [List.length_cons, List.length_cons] at heven
      have hfits : hash.toNat + (hi.toNat * 256 + lo.toNat) < 2 ^ 32 :=
        Nat.lt_of_le_of_lt (by omega) hroom
      have hword := toNat_word hi lo
      have hnext : (hash + (hi.toUInt32 <<< (8 : UInt32) ||| lo.toUInt32)).toNat
          = hash.toNat + (hi.toNat * 256 + lo.toNat) := by
        rw [toNat_add_of_lt (by omega), hword]
      obtain ⟨hwraps, hsum⟩ := ih (by omega) (hash + (hi.toUInt32 <<< (8 : UInt32) ||| lo.toUInt32)) (by omega)
      rw [NeverWraps, hashWords, hsum, hnext, wordSum]
      exact ⟨⟨hfits, hwraps⟩, Nat.add_assoc ..⟩
  | case2 hi => exact absurd heven (by simp)
  | case3 => exact ⟨trivial, rfl⟩

/-- **The hash is the reference's**, wherever the sum has room in 32 bits. -/
theorem pseudoHash_eq_dhtHash (buffer : Bytes) (hroom : wordSum buffer < 2 ^ 32) :
    NeverWraps 0 (padded buffer) ∧ ((pseudoHash buffer).toNat : ℤ) = dhtHash buffer := by
  rw [← wordSum_padded] at hroom
  obtain ⟨hwraps, hsum⟩ := hashWords_exact (padded_even buffer) 0 (by simpa using hroom)
  refine ⟨hwraps, ?_⟩
  have hhash : (hashWords 0 (padded buffer)).toNat = wordSum (padded buffer) := by simpa using hsum
  calc ((pseudoHash buffer).toNat : ℤ)
      = (-(foldOnce (hashWords 0 (padded buffer)).toNat : ℤ) - 1) % 2 ^ 16 := by
        rw [← toNat_foldOnce, ← toNat_complement]
        rfl
    _ = dhtHash buffer := by
        rw [hhash]
        rfl

/-- **Every node and every checker puts a key in the same place**: up to 131072 bytes nothing
wraps around and the hash is the reference's, and no URI that is parsed is longer. -/
theorem hash_same_place {buffer : Bytes} (hlength : buffer.length ≤ 131072) :
    NeverWraps 0 (padded buffer) ∧ ((pseudoHash buffer).toNat : ℤ) = dhtHash buffer ∧
      ∀ (mem : Bytes) (n : Nat) (request : Request) (parse : Parse) (uri : Bytes), mem.length ≤ httpMaxSize →
        parseRequest mem n request = .returns parse → 0 < parse.ret → parse.request.uri = some uri →
          uri.length ≤ 131072 := by
  have hsum := wordSum_le buffer
  obtain ⟨hwraps, heq⟩ := pseudoHash_eq_dhtHash buffer (by omega)
  refine ⟨hwraps, heq, ?_⟩
  intro mem n request parse uri hmem hparse hret huri
  have huri := parseRequest_uri_length hparse hret huri
  have hsize : httpMaxSize = 8192 := rfl
  omega

def abcText : Bytes := ascii "GET /abc HTTP/1.1\r\n\r\n"

theorem abc_parsed : parseRequest abcText abcText.length ⟨none, none, [], [], -1⟩ = .returns
    ⟨21, ascii "GET\x00/abc\x00HTTP/1.1\r\n\r\n", ⟨some (ascii "GET"), some (ascii "/abc"), [], [], 0⟩⟩ := by
  decide +kernel

theorem abc_same_place : abcText.length ≤ httpMaxSize ∧ (ascii "/abc").length ≤ 131072 ∧
    ((pseudoHash (ascii "/abc")).toNat : ℤ) = dhtHash (ascii "/abc") := by
  have hshort : (ascii "").length ≤ 131072 := by decide +kernel
  have hmem : abcText.length ≤ httpMaxSize := by decide +kernel
  have hlength := (hash_same_place hshort).2.2 abcText abcText.length _ _ (ascii "/abc") hmem abc_parsed
    (by decide) rfl
  exact ⟨hmem, hlength, (hash_same_place hlength).2.1⟩

end ChordDht.Chord
