import Adventure.Page
import Adventure.Store.Alloc

namespace Adventure

open Memory

theorem toItem_eq {n : Nat} (h : n < 2 ^ 16) : toItem n = n := Nat.mod_eq_of_lt h

theorem subItem_eq {a b : Nat} (hle : b ≤ a) (hlt : a - b < 2 ^ 16) :
    subItem a b = a - b := by
  unfold subItem toItem
  omega

theorem sub32_eq {a b : Nat} (hle : b ≤ a) (hlt : a < 2 ^ 32) : sub32 a b = a - b := by
  unfold sub32
  omega

section Access

variable (s : Store) {page i : Nat}

theorem readUi64_eq (hi : i < 2 ^ 16) (hp : page + i < 2 ^ 64) :
    readUi64 s page i = s.file.data.word (page + i) := by
  rw [readUi64, storeReadUi64_eq, toItem_eq hi, add64_eq hp]

theorem readUi64_lt (page i : Nat) : readUi64 s page i < 2 ^ 64 := by
  rw [readUi64, storeReadUi64_eq]
  exact word_lt _ _

theorem writeUi64_eq (n : Nat) (hi : i < 2 ^ 16) (hp : page + i < 2 ^ 64) :
    writeUi64 s page i n = s.setData (s.file.data.setWord (page + i) n) := by
  rw [writeUi64, storeWriteUi64_eq, toItem_eq hi, add64_eq hp]

theorem copy_eq {dest di src si sz : Nat} (hdi : di < 2 ^ 16) (hd : dest + di < 2 ^ 64)
    (hsi : si < 2 ^ 16) (hs : src + si < 2 ^ 64) (hsz : sz < 2 ^ 16) :
    copy s dest di src si sz = s.setData (s.file.data.copy (dest + di) (src + si) sz) := by
  rw [copy, storeCopy_eq, toItem_eq hdi, toItem_eq hsi, toItem_eq hsz, add64_eq hd, add64_eq hs]

end Access

section Header

variable {flags size n used : Nat}

theorem hdrWord_eq (flags size n used : Nat) :
    hdrWord flags size n used = flags % 2 ^ 8 * 2 ^ 56 + 16 * 2 ^ 48 + size % 2 ^ 16 * 2 ^ 32 +
      n % 2 ^ 16 * 2 ^ 16 + used % 2 ^ 16 := by
  have hor : ∀ {a b i : Nat}, b < 2 ^ i → a <<< i ||| b = a * 2 ^ i + b := fun hb => by
    rw [← Nat.shiftLeft_add_eq_or_of_lt hb, Nat.shiftLeft_eq]
  rw [hdrWord, Nat.shiftLeft_zero, Nat.or_assoc, Nat.or_assoc, Nat.or_assoc,
    hor (Nat.mod_lt used (by decide)), hor (a := size % 2 ^ 16) (by omega), hor (a := 16) (by omega),
    hor (by omega)]
  omega

theorem hdrWord_lt (flags size n used : Nat) : hdrWord flags size n used < 2 ^ 64 := by
  rw [hdrWord_eq]
  omega

theorem pgFlags_hdrWord (flags size n used : Nat) :
    pgFlags (hdrWord flags size n used) = flags % 2 ^ 8 := by
  rw [pgFlags, hdrWord_eq, Nat.shiftRight_eq_div_pow, Nat.and_two_pow_sub_one_eq_mod _ 16]
  omega

theorem pgSize_hdrWord (flags size n used : Nat) :
    pgSize (hdrWord flags size n used) = size % 2 ^ 16 := by
  rw [pgSize, hdrWord_eq, Nat.shiftRight_eq_div_pow, Nat.and_two_pow_sub_one_eq_mod _ 16]
  omega

theorem pgNkeys_hdrWord (flags size n used : Nat) :
    pgNkeys (hdrWord flags size n used) = n % 2 ^ 16 := by
  rw [pgNkeys, hdrWord_eq, Nat.shiftRight_eq_div_pow, Nat.and_two_pow_sub_one_eq_mod _ 16]
  omega

theorem pgUsed_hdrWord (flags size n used : Nat) :
    pgUsed (hdrWord flags size n used) = used % 2 ^ 16 := by
  rw [pgUsed, hdrWord_eq, Nat.shiftRight_eq_div_pow, Nat.and_two_pow_sub_one_eq_mod _ 16]
  omega

end Header

-- A page whose header word has the given fields, all within their width, and whose content is a
-- list of words from offset `start` on.
structure PageAt (m : Memory) (p flags size n start : Nat) (words : List Nat) : Prop where
  header : m.word p = hdrWord flags size n (start + 8 * words.length)
  content : m.WordsAt (p + start) words
  flags_lt : flags < 2 ^ 8
  size_lt : size < 2 ^ 16
  fits : start + 8 * words.length ≤ size
  n_lt : n < 2 ^ 16
  le_start : 8 ≤ start
  addr_lt : p + size < 2 ^ 63

namespace PageAt

instance (m : Memory) (p flags size n start : Nat) (words : List Nat) :
    Decidable (PageAt m p flags size n start words) :=
  decidable_of_iff (m.word p = hdrWord flags size n (start + 8 * words.length) ∧
      m.WordsAt (p + start) words ∧ flags < 2 ^ 8 ∧ size < 2 ^ 16 ∧
      start + 8 * words.length ≤ size ∧ n < 2 ^ 16 ∧ 8 ≤ start ∧ p + size < 2 ^ 63)
    ⟨fun ⟨hh, hc, hf, hs, hfit, hn, hst, ha⟩ => ⟨hh, hc, hf, hs, hfit, hn, hst, ha⟩,
      fun h => ⟨h.header, h.content, h.flags_lt, h.size_lt, h.fits, h.n_lt, h.le_start, h.addr_lt⟩⟩

variable {m m' : Memory} {s : Store} {p flags size n start : Nat} {words : List Nat}

theorem congr (h : PageAt m p flags size n start words) (hs : Same m m' p size) :
    PageAt m' p flags size n start words := by
  have hfits := h.fits
  have hstart := h.le_start
  refine { h with header := ?_, content := ?_ }
  · rw [← h.header]
    exact word_congr (hs.mono le_rfl (by omega))
  · exact wordsAt_congr h.content (hs.mono (by omega) (by omega))

section Fields

variable (h : PageAt s.file.data p flags size n start words)

include h

theorem pgHeader_eq : pgHeader s p = hdrWord flags size n (start + 8 * words.length) := by
  have := h.addr_lt
  rw [pgHeader, readUi64_eq s (by omega) (by omega), Nat.add_zero, h.header]

theorem flags_eq : pgFlags (pgHeader s p) = flags := by
  rw [h.pgHeader_eq, pgFlags_hdrWord, Nat.mod_eq_of_lt h.flags_lt]

theorem size_eq : pgSize (pgHeader s p) = size := by
  rw [h.pgHeader_eq, pgSize_hdrWord, Nat.mod_eq_of_lt h.size_lt]

theorem nkeys_eq : pgNkeys (pgHeader s p) = n := by
  rw [h.pgHeader_eq, pgNkeys_hdrWord, Nat.mod_eq_of_lt h.n_lt]

theorem used_eq : pgUsed (pgHeader s p) = start + 8 * words.length := by
  rw [h.pgHeader_eq, pgUsed_hdrWord, Nat.mod_eq_of_lt (h.fits.trans_lt h.size_lt)]

theorem end_eq : pgEnd (pgHeader s p) = start + 8 * words.length := h.used_eq

theorem free_eq : pgFree (pgHeader s p) = size - (start + 8 * words.length) := by
  have := h.size_lt
  rw [pgFree, h.size_eq, h.used_eq, sub64_eq h.fits (by omega)]

-- The word number `i` of the content.
theorem read_eq (i : Nat) (hi : i < words.length) : readUi64 s p (start + 8 * i) = words[i] := by
  have hsize := h.size_lt
  have hfits := h.fits
  have := h.addr_lt
  rw [readUi64_eq s (by omega) (by omega), ← Nat.add_assoc, h.content.getElem i hi]

end Fields

end PageAt

section Build

variable {m m' : Memory} {d flags size n start : Nat} {words : List Nat}

-- A page is built on words that fit it, in either order: the header after the words, ...
theorem pageAt_of_filled (h : Filled m m' d start size words) (hflags : flags < 2 ^ 8)
    (hsize : size < 2 ^ 16) (hfits : start + 8 * words.length ≤ size) (hn : n < 2 ^ 16)
    (hstart : 8 ≤ start) (haddr : d + size < 2 ^ 63) {used : Nat}
    (hused : used = start + 8 * words.length) :
    PageAt (m'.setWord d (hdrWord flags size n used)) d flags size n start words where
  header := by
    rw [word_setWord, Nat.mod_eq_of_lt (hdrWord_lt _ _ _ _), hused]
  content := (h.setWord _ le_rfl (by omega) (by omega)).words
  flags_lt := hflags
  size_lt := hsize
  fits := hfits
  n_lt := hn
  le_start := hstart
  addr_lt := haddr

-- ... or before them.
theorem pageAt_of_filled_after {hdr : Nat} (h : Filled m m' (d + start) 0 (size - start) words)
    (hhdr : m.word d = hdr) (hflags : flags < 2 ^ 8)
    (hsize : size < 2 ^ 16) (hfits : start + 8 * words.length ≤ size) (hn : n < 2 ^ 16)
    (hstart : 8 ≤ start) (haddr : d + size < 2 ^ 63)
    (hused : hdr = hdrWord flags size n (start + 8 * words.length)) :
    PageAt m' d flags size n start words where
  header := by
    rw [word_congr (h.only.same (by omega)), hhdr, hused]
  content := h.words
  flags_lt := hflags
  size_lt := hsize
  fits := hfits
  n_lt := hn
  le_start := hstart
  addr_lt := haddr

end Build

end Adventure
