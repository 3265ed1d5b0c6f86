import Mathlib.Data.List.GetD
import Mathlib.Data.Nat.Basic
import Mathlib.Order.Basic
import Xv6.Sh.Parser

/-!
# The tokens of the shell

What `gettoken` and `peek` do, in terms of the tokens that are left. The parser is about tokens
only, and nothing behind this module looks at bytes, but for the words: `IsWord` says that a word is
all the bytes that can be one.

## Main results

* `gettoken_nil`, `gettoken_cons`, `peek_eq` — what `gettoken` and `peek` do
* `isWord_of_mem` — the words among the tokens are words of the line
-/

namespace Xv6.Sh

open List

variable {buf : List UInt8} {s : ℕ}

/-- The characters of a list are gone through one by one. -/
instance (priority := 10000) decidableChars (p : Char → Prop) [DecidablePred p] (l : List Char) :
    Decidable (∀ c ∈ l, p c) := List.decidableBAll p l

/-! ### Bytes -/

theorem byte_ne_zero (hnul : 0 ∉ buf) (hs : s < buf.length) : byte buf s ≠ 0 := by
  rw [byte, getD_eq_getElem _ _ hs]
  intro h
  exact hnul (h ▸ getElem_mem hs)

theorem byte_length (hs : buf.length ≤ s) : byte buf s = 0 := getD_eq_default _ _ hs

theorem scanLoop_spec (p : UInt8 → Bool) (k s : ℕ) (hk : s + k = buf.length) :
    s ≤ scanLoop buf p k s ∧ scanLoop buf p k s ≤ buf.length ∧
      (scanLoop buf p k s < buf.length → p (byte buf (scanLoop buf p k s)) = false) ∧
      ∀ i, s ≤ i → i < scanLoop buf p k s → p (byte buf i) = true := by
  induction k generalizing s with
  | zero =>
    refine ⟨le_rfl, hk.le, fun hlt => ?_, fun i hi hlt => ?_⟩
    · exact absurd hlt hk.not_lt
    · exact absurd hlt (Nat.not_lt.mpr hi)
  | succ k ih =>
    rw [scanLoop]
    split
    next hp =>
      obtain ⟨hle, hend, hstop, hall⟩ := ih (s + 1) (by omega)
      refine ⟨by omega, hend, hstop, fun i hi hlt => ?_⟩
      by_cases his : i = s
      · rw [his]
        exact hp
      · exact hall i (by omega) hlt
    next hp =>
      refine ⟨le_rfl, by omega, fun _ => by simpa using hp, fun i hi hlt => ?_⟩
      exact absurd hlt (Nat.not_lt.mpr hi)

section Scan

variable (p : UInt8 → Bool) (hs : s ≤ buf.length)

include hs

theorem le_scan : s ≤ scan buf p s := (scanLoop_spec p _ s (by omega)).1

theorem scan_le : scan buf p s ≤ buf.length := (scanLoop_spec p _ s (by omega)).2.1

theorem scan_stops (hlt : scan buf p s < buf.length) : p (byte buf (scan buf p s)) = false :=
  (scanLoop_spec p _ s (by omega)).2.2.1 hlt

theorem of_lt_scan {i : ℕ} (hi : s ≤ i) (hlt : i < scan buf p s) : p (byte buf i) = true :=
  (scanLoop_spec p _ s (by omega)).2.2.2 i hi hlt

theorem scan_eq_self (h : s < buf.length → p (byte buf s) = false) : scan buf p s = s := by
  refine le_antisymm (Nat.not_lt.mp fun hlt => ?_) (le_scan p hs)
  have htrue := of_lt_scan p hs le_rfl hlt
  have hslt : s < buf.length := hlt.trans_le (scan_le p hs)
  rw [h hslt] at htrue
  cases htrue

theorem lt_scan (hlt : s < buf.length) (hp : p (byte buf s) = true) : s < scan buf p s := by
  refine lt_of_le_of_ne (le_scan p hs) fun heq => ?_
  have hstop := scan_stops p hs (heq ▸ hlt)
  rw [← heq, hp] at hstop
  cases hstop

end Scan

/-! ### A token -/

/-- The symbol that a token starts with. -/
def Tok.first : Tok → Option Char
  | .bar => some '|'
  | .lpar => some '('
  | .rpar => some ')'
  | .semi => some ';'
  | .amp => some '&'
  | .lt => some '<'
  | .gt => some '>'
  | .gtgt => some '>'
  | .word _ _ => none

/-- All the bytes of a word, with none that could be more of it behind them. -/
structure IsWord (buf : List UInt8) (w : ℕ × ℕ) : Prop where
  lt : w.1 < w.2
  le : w.2 ≤ buf.length
  mem : ∀ i, w.1 ≤ i → i < w.2 → isWord (byte buf i) = true
  stop : w.2 < buf.length → isWord (byte buf w.2) = false

/-- The token that starts at a byte. -/
structure Reads (buf : List UInt8) (s : ℕ) (g : Got) : Prop where
  ret_ne : g.ret ≠ 0
  ret_eq : g.ret = g.tok.ret
  first : ∀ c ∈ ['<', '|', '>', '&', ';', '(', ')'],
    byte buf (scan buf isWhite s) = c.toUInt8 ↔ g.tok.first = some c
  word : ∀ q eq, g.tok = .word q eq → g.q = q ∧ g.eq = eq ∧ IsWord buf (q, eq)
  lt : s < g.next
  le : g.next ≤ buf.length

theorem gettoken_end (hend : scan buf isWhite s = buf.length) :
    (gettoken buf s).ret = 0 ∧ (gettoken buf s).next = buf.length := by
  have hb : byte buf buf.length = 0 := byte_length le_rfl
  unfold gettoken
  simp only [hend, hb, if_true]
  exact ⟨trivial, scan_eq_self isWhite le_rfl fun h => absurd h (lt_irrefl _)⟩

theorem reads_symbol (t : Tok) {q : ℕ} (hs : s ≤ buf.length) (htok : ∀ eq next,
      Got.tok ⟨t.ret, q, eq, next⟩ = t) (hret : t.ret ≠ 0) (hword : ∀ q eq, t ≠ .word q eq)
    (hfirst : ∀ c ∈ ['<', '|', '>', '&', ';', '(', ')'],
      byte buf (scan buf isWhite s) = c.toUInt8 ↔ t.first = some c)
    {n : ℕ} (hn : scan buf isWhite s < n) (hle : n ≤ buf.length) :
    Reads buf s ⟨t.ret, q, n, scan buf isWhite n⟩ where
  ret_ne := hret
  ret_eq := by rw [htok]
  first := by
    rw [htok]
    exact hfirst
  word q eq h := absurd ((htok _ _).symm.trans h) (hword q eq)
  lt := ((le_scan isWhite hs).trans_lt hn).trans_le (le_scan isWhite hle)
  le := scan_le isWhite hle

theorem reads_word (hs : s ≤ buf.length) (hlt : scan buf isWhite s < buf.length)
    (hsym : byte buf (scan buf isWhite s) ∉ symbols) :
    Reads buf s ⟨'a'.toUInt8, scan buf isWhite s, scan buf isWord (scan buf isWhite s),
      scan buf isWhite (scan buf isWord (scan buf isWhite s))⟩ := by
  have hwhite : byte buf (scan buf isWhite s) ∉ whitespace := by
    simpa [isWhite] using scan_stops isWhite hs hlt
  have hword : isWord (byte buf (scan buf isWhite s)) = true := by
    simp [isWord, hwhite, hsym]
  have hadv := lt_scan isWord hlt.le hlt hword
  have hend := scan_le isWord hlt.le
  refine ⟨show 'a'.toUInt8 ≠ 0 by decide, rfl, fun c hc => ⟨fun h => ?_, fun h => by cases h⟩,
    fun q eq h => ?_, ?_, scan_le isWhite hend⟩
  · refine absurd ?_ hsym
    rw [h]
    exact mem_map_of_mem hc
  · cases h
    exact ⟨rfl, rfl, hadv, hend, fun i => of_lt_scan isWord hlt.le, scan_stops isWord hlt.le⟩
  · exact ((le_scan isWhite hs).trans_lt hadv).trans_le (le_scan isWhite hend)

section

variable (hnul : 0 ∉ buf)

include hnul

section

variable (hs : s ≤ buf.length)

include hs

/-- **`gettoken` reads a token** if there is one. -/
theorem gettoken_reads (hlt : scan buf isWhite s < buf.length) : Reads buf s (gettoken buf s) := by
  have hne := byte_ne_zero hnul hlt
  unfold gettoken
  dsimp only
  rw [if_neg hne]
  split
  next hsym =>
    -- The symbols that are tokens by themselves.
    have hcases : ∃ t ∈ [Tok.bar, .lpar, .rpar, .semi, .amp, .lt],
        byte buf (scan buf isWhite s) = t.ret := by
      simpa [Tok.ret] using hsym
    obtain ⟨t, ht, hbyte⟩ := hcases
    rw [hbyte]
    have hsymbol : (∀ eq next, Got.tok ⟨t.ret, scan buf isWhite s, eq, next⟩ = t) ∧ t.ret ≠ 0 ∧
        (∀ q eq, t ≠ .word q eq) ∧ ∀ c ∈ ['<', '|', '>', '&', ';', '(', ')'],
          t.ret = c.toUInt8 ↔ t.first = some c := by
      simp only [mem_cons, not_mem_nil, or_false] at ht
      rcases ht with rfl | rfl | rfl | rfl | rfl | rfl <;>
        exact ⟨fun _ _ => rfl, by decide, (fun _ _ h => by cases h), by decide⟩
    obtain ⟨htok, hret, hword, hfirst⟩ := hsymbol
    rw [← hbyte] at hfirst
    exact reads_symbol t hs htok hret hword hfirst (Nat.lt_succ_self _) hlt
  next hsym =>
    split
    next hgt =>
      have hfirst : ∀ c ∈ ['<', '|', '>', '&', ';', '(', ')'],
          byte buf (scan buf isWhite s) = c.toUInt8 ↔ some '>' = some c := by
        rw [hgt]
        decide
      split
      next hgt2 =>
        -- Behind the first `>` is another one, so the line is not at its end there.
        have hlt2 : scan buf isWhite s + 1 < buf.length := by
          by_contra hcon
          rw [byte_length (Nat.not_lt.mp hcon)] at hgt2
          exact absurd hgt2 (by decide)
        exact reads_symbol .gtgt hs (fun _ _ => rfl) (by decide) (fun _ _ h => by cases h)
          hfirst (by omega) hlt2
      next =>
        rw [hgt]
        exact reads_symbol .gt hs (fun _ _ => rfl) (by decide) (fun _ _ h => by cases h)
          hfirst (Nat.lt_succ_self _) hlt
    next hgt =>
      refine reads_word hs hlt fun hmem => ?_
      simp only [symbols, map_cons, map_nil, mem_cons, not_mem_nil, or_false] at hmem hsym
      tauto

/-! ### The tokens that are left -/

theorem gettoken_ret_eq_zero_iff : (gettoken buf s).ret = 0 ↔ scan buf isWhite s = buf.length := by
  refine ⟨fun hret => ?_, fun hend => (gettoken_end hend).1⟩
  by_contra hne
  exact (gettoken_reads hnul hs (lt_of_le_of_ne (scan_le isWhite hs) hne)).ret_ne hret

theorem tokensLoop_eq {k k' : ℕ} (hk : buf.length - s ≤ k)
    (hk' : buf.length - s ≤ k') : tokensLoop buf k s = tokensLoop buf k' s := by
  induction k generalizing s k' with
  | zero =>
    have hs' : s = buf.length := by omega
    cases k' with
    | zero => rfl
    | succ k' =>
      have hend : scan buf isWhite s = buf.length :=
        le_antisymm (scan_le isWhite hs) (hs' ▸ le_scan isWhite hs)
      rw [tokensLoop, tokensLoop]
      exact (if_pos (gettoken_end hend).1).symm
  | succ k ih =>
    by_cases hend : scan buf isWhite s = buf.length
    · cases k' with
      | zero => exact if_pos (gettoken_end hend).1
      | succ k' =>
        rw [tokensLoop, tokensLoop]
        exact (if_pos (gettoken_end hend).1).trans (if_pos (gettoken_end hend).1).symm
    · have hlt := lt_of_le_of_ne (scan_le isWhite hs) hend
      have hreads := gettoken_reads hnul hs hlt
      have hadv := hreads.lt
      have hle := hreads.le
      cases k' with
      | zero => omega
      | succ k' =>
        rw [tokensLoop, tokensLoop]
        rw [if_neg hreads.ret_ne, if_neg hreads.ret_ne]
        exact congrArg _ (ih hle (by omega) (by omega))

theorem tokensFrom_eq : tokensFrom buf s = if (gettoken buf s).ret = 0 then []
      else (gettoken buf s).tok :: tokensFrom buf (gettoken buf s).next := by
  rw [tokensFrom, tokensLoop_eq hnul hs le_rfl (Nat.le_succ _), tokensLoop]
  split
  next => rfl
  next hret =>
    have hlt := lt_of_le_of_ne (scan_le isWhite hs) (mt (gettoken_ret_eq_zero_iff hnul hs).mpr hret)
    have hreads := gettoken_reads hnul hs hlt
    have hadv := hreads.lt
    exact congrArg _ (tokensLoop_eq hnul hreads.le (by omega) le_rfl)

end

end

/-- The tokens that are left at a position of the line. -/
def At (buf : List UInt8) (s : ℕ) (ts : List Tok) : Prop := s ≤ buf.length ∧ tokensFrom buf s = ts

section Interface

variable {t : Tok} {ts : List Tok} (hnul : 0 ∉ buf)

include hnul

theorem At.cases (h : At buf s ts) : (scan buf isWhite s = buf.length ∧ ts = []) ∨
      scan buf isWhite s < buf.length ∧ Reads buf s (gettoken buf s) ∧
        ts = (gettoken buf s).tok :: tokensFrom buf (gettoken buf s).next := by
  obtain ⟨hs, rfl⟩ := h
  rw [tokensFrom_eq hnul hs]
  by_cases hend : scan buf isWhite s = buf.length
  · exact Or.inl ⟨hend, if_pos (gettoken_end hend).1⟩
  · have hlt := lt_of_le_of_ne (scan_le isWhite hs) hend
    have hreads := gettoken_reads hnul hs hlt
    exact Or.inr ⟨hlt, hreads, if_neg hreads.ret_ne⟩

/-- **`gettoken` at the end.** -/
theorem gettoken_nil (h : At buf s []) :
    (gettoken buf s).ret = 0 ∧ At buf (gettoken buf s).next [] := by
  rcases h.cases hnul with ⟨hend, -⟩ | ⟨-, -, htok⟩
  · obtain ⟨hret, hnext⟩ := gettoken_end hend
    rw [hnext]
    refine ⟨hret, le_rfl, ?_⟩
    rw [tokensFrom, Nat.sub_self]
    rfl
  · cases htok

/-- **`gettoken` takes the first token.** -/
theorem gettoken_cons (h : At buf s (t :: ts)) :
    (gettoken buf s).ret = t.ret ∧ At buf (gettoken buf s).next ts ∧
      ∀ q eq, t = .word q eq → (gettoken buf s).q = q ∧ (gettoken buf s).eq = eq := by
  rcases h.cases hnul with ⟨-, hnil⟩ | ⟨-, hreads, htok⟩
  · cases hnil
  · obtain ⟨rfl, rfl⟩ := List.cons.inj htok
    refine ⟨hreads.ret_eq, ⟨hreads.le, rfl⟩, fun q eq hword => ?_⟩
    obtain ⟨hq, heq, -⟩ := hreads.word q eq hword
    exact ⟨hq, heq⟩

theorem At.scan (h : At buf s ts) : At buf (scan buf isWhite s) ts := by
  obtain ⟨hs, rfl⟩ := h
  have hidem : Sh.scan buf isWhite (Sh.scan buf isWhite s) = Sh.scan buf isWhite s :=
    scan_eq_self isWhite (scan_le isWhite hs) (scan_stops isWhite hs)
  have hget : gettoken buf (Sh.scan buf isWhite s) = gettoken buf s := by
    unfold gettoken
    rw [hidem]
  refine ⟨scan_le isWhite hs, ?_⟩
  rw [tokensFrom_eq hnul (scan_le isWhite hs), tokensFrom_eq hnul hs, hget]

/-- **`peek` looks at the first token.** -/
theorem peek_eq (cs : List Char) (hcs : ∀ c ∈ cs, c ∈ ['<', '|', '>', '&', ';', '(', ')'])
    (h : At buf s ts) : ((peek buf cs s).1 = true ↔ ∃ t ∈ ts.head?, ∃ c ∈ cs, t.first = some c) ∧
      At buf (peek buf cs s).2 ts := by
  refine ⟨?_, h.scan hnul⟩
  rw [peek, decide_eq_true_eq, mem_map]
  rcases h.cases hnul with ⟨hend, rfl⟩ | ⟨hlt, hreads, rfl⟩
  · rw [hend, byte_length le_rfl]
    simp
  · have hne := byte_ne_zero hnul hlt
    constructor
    · rintro ⟨-, c, hc, hbyte⟩
      exact ⟨_, rfl, c, hc, (hreads.first c (hcs c hc)).mp hbyte.symm⟩
    · rintro ⟨t, ht, c, hc, hfirst⟩
      obtain rfl : (gettoken buf s).tok = t := Option.some.inj ht
      exact ⟨hne, c, hc, ((hreads.first c (hcs c hc)).mpr hfirst).symm⟩

theorem isWord_of_mem (h : At buf s ts) {q eq : ℕ} (hmem : .word q eq ∈ ts) :
    IsWord buf (q, eq) := by
  induction ts generalizing s with
  | nil => exact absurd hmem not_mem_nil
  | cons t ts ih =>
    rcases h.cases hnul with ⟨-, hnil⟩ | ⟨-, hreads, htok⟩
    · cases hnil
    · obtain ⟨rfl, rfl⟩ := List.cons.inj htok
      rcases mem_cons.mp hmem with heq | hmem
      · exact (hreads.word q eq heq.symm).2.2
      · exact ih ⟨hreads.le, rfl⟩ hmem

end Interface

end Xv6.Sh
