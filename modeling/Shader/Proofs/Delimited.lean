import Mathlib.Data.Nat.Notation
import Shader.Instruction.Basic
import Shader.Text.Quoted

/-!
# Texts that show where they end

A listing puts texts one after the other and never says how long they are. Most end at the first
character that they cannot hold: a number at a blank, the digits of an escape at a brace. A quoted text
ends at the last quote, which `unescape` tells from the characters before it.
-/

namespace Shader

open List

variable {α β : Type} {stop : Char → Prop} {write : α → List Char} {c : Char} {cs rest rest' : List Char}

/-! ## Delimited texts -/

/-- The text starts with a character that ends the one before it. -/
def Stops (stop : Char → Prop) (cs : List Char) : Prop := ∃ c rest, cs = c :: rest ∧ stop c

/-- Characters that end a number. -/
def Gap (c : Char) : Prop := c = ' ' ∨ c = '\n'

/-- Two values with the same text, each followed by a text that stops it, are the same, and so is
what follows. -/
def Delimited (stop : Char → Prop) (write : α → List Char) : Prop :=
  ∀ a a' rest rest', Stops stop rest → Stops stop rest' → write a ++ rest = write a' ++ rest' → a = a' ∧ rest = rest'

theorem stops_cons (h : stop c) : Stops stop (c :: cs) := ⟨c, cs, rfl, h⟩

theorem append_inj_of_free {xs ys : List Char} (hxs : ∀ c ∈ xs, ¬ stop c) (hys : ∀ c ∈ ys, ¬ stop c)
    (hrest : Stops stop rest) (hrest' : Stops stop rest') (h : xs ++ rest = ys ++ rest') : xs = ys ∧ rest = rest' := by
  induction xs generalizing ys with
  | nil =>
    cases ys with
    | nil => exact ⟨rfl, h⟩
    | cons y ys =>
      obtain ⟨c, tail, rfl, hstop⟩ := hrest
      have hy : c = y := (cons.inj h).1
      exact absurd (hy ▸ hstop) (hys y mem_cons_self)
  | cons x xs ih =>
    cases ys with
    | nil =>
      obtain ⟨c, tail, rfl, hstop⟩ := hrest'
      have hx : x = c := (cons.inj h).1
      exact absurd (hx ▸ hstop) (hxs x mem_cons_self)
    | cons y ys =>
      obtain ⟨hhead, htail⟩ := cons.inj h
      obtain ⟨hrun, hrests⟩ := ih (fun c hc => hxs c (mem_cons_of_mem _ hc))
        (fun c hc => hys c (mem_cons_of_mem _ hc)) htail
      exact ⟨hhead ▸ hrun ▸ rfl, hrests⟩

namespace Delimited

theorem of_free (hfree : ∀ a, ∀ c ∈ write a, ¬ stop c) (hinj : ∀ a a', write a = write a' → a = a') :
    Delimited stop write := by
  intro a a' rest rest' hrest hrest' h
  obtain ⟨htext, hrests⟩ := append_inj_of_free (hfree a) (hfree a') hrest hrest' h
  exact ⟨hinj a a' htext, hrests⟩

theorem comap (h : Delimited stop write) (f : β → α) (hinj : ∀ b b', f b = f b' → b = b') :
    Delimited stop (fun b => write (f b)) := by
  intro b b' rest rest' hrest hrest' htext
  obtain ⟨hvalue, hrests⟩ := h _ _ _ _ hrest hrest' htext
  exact ⟨hinj b b' hvalue, hrests⟩

theorem after (h : Delimited stop write) (lead : List Char) : Delimited stop (fun a => lead ++ write a) := by
  intro a a' rest rest' hrest hrest' htext
  rw [append_assoc, append_assoc] at htext
  exact h _ _ _ _ hrest hrest' (append_cancel_left htext)

/-- Two fields with a stop between them are told apart if each of them is. -/
theorem pair {stop' : Char → Prop} {write' : β → List Char} (h : Delimited stop write) (h' : Delimited stop' write')
    (hc : stop c) : Delimited stop' (fun p : α × β => write p.1 ++ c :: write' p.2) := by
  rintro ⟨a, b⟩ ⟨a', b'⟩ rest rest' hrest hrest' htext
  rw [append_assoc, append_assoc] at htext
  obtain ⟨rfl, hsecond⟩ := h _ _ _ _ (stops_cons hc) (stops_cons hc) htext
  obtain ⟨rfl, hrests⟩ := h' _ _ _ _ hrest hrest' (cons.inj hsecond).2
  exact ⟨rfl, hrests⟩

theorem stops_fields (l : List α) (h : Stops Gap rest) : Stops Gap (l.flatMap (fun a => ' ' :: write a) ++ rest) := by
  cases l with
  | nil => exact h
  | cons a l => exact stops_cons (.inl rfl)

theorem fields (h : Delimited Gap write) {l l' : List α} (hlength : l.length = l'.length)
    (hrest : Stops Gap rest) (hrest' : Stops Gap rest')
    (htext : l.flatMap (fun a => ' ' :: write a) ++ rest = l'.flatMap (fun a => ' ' :: write a) ++ rest') :
    l = l' ∧ rest = rest' := by
  induction l generalizing l' with
  | nil =>
    obtain rfl := eq_nil_of_length_eq_zero hlength.symm
    exact ⟨rfl, htext⟩
  | cons a l ih =>
    obtain ⟨a', l', rfl⟩ := exists_cons_of_length_eq_add_one hlength.symm
    rw [flatMap_cons, flatMap_cons, append_assoc, append_assoc] at htext
    obtain ⟨rfl, hothers⟩ := h _ _ _ _ (stops_fields l hrest) (stops_fields l' hrest') (cons.inj htext).2
    obtain ⟨rfl, hrests⟩ := ih (Nat.succ.inj hlength) hothers
    exact ⟨rfl, hrests⟩

/-- The fields of a line are determined by its text. -/
theorem line (h : Delimited Gap write) {l l' : List α} (htext : l.flatMap (fun a => ' ' :: write a) ++ '\n' :: rest
      = l'.flatMap (fun a => ' ' :: write a) ++ '\n' :: rest') :
    l = l' ∧ rest = rest' := by
  have hend : ∀ cs, Stops Gap ('\n' :: cs) := fun cs => stops_cons (.inr rfl)
  induction l generalizing l' with
  | nil =>
    cases l' with
    | nil => exact ⟨rfl, (cons.inj htext).2⟩
    | cons a' l' => exact absurd (cons.inj htext).1 (by decide)
  | cons a l ih =>
    cases l' with
    | nil => exact absurd (cons.inj htext).1 (by decide)
    | cons a' l' =>
      rw [flatMap_cons, flatMap_cons, append_assoc, append_assoc] at htext
      obtain ⟨rfl, hothers⟩ := h _ _ _ _ (stops_fields l (hend _)) (stops_fields l' (hend _)) (cons.inj htext).2
      obtain ⟨rfl, hrests⟩ := ih hothers
      exact ⟨rfl, hrests⟩

end Delimited

/-! ## Numbers -/

namespace Text

variable {b n : Nat}

theorem exists_of_mem_toDigits (hb : 1 < b) (h : c ∈ Nat.toDigits b n) : ∃ d < b, c = Nat.digitChar d := by
  induction n using Nat.strongRecOn with
  | ind n ih =>
    rw [Nat.toDigits_eq_if hb] at h
    split at h
    case isTrue hlt => exact ⟨n, hlt, mem_singleton.1 h⟩
    case isFalse hle =>
      rcases mem_append.1 h with h | h
      · exact ih (n / b) (Nat.div_lt_self (by omega) hb) h
      · exact ⟨n % b, Nat.mod_lt _ (by omega), mem_singleton.1 h⟩

theorem free_toDigits (hb : 1 < b) (hstop : ∀ d, ¬ stop (Nat.digitChar d)) (n : Nat) :
    ∀ c ∈ Nat.toDigits b n, ¬ stop c := by
  intro c hc
  obtain ⟨d, -, rfl⟩ := exists_of_mem_toDigits hb hc
  exact hstop d

theorem not_gap_digitChar (d : Nat) : ¬ Gap (Nat.digitChar d) := by
  rintro (h | h)
  · exact Nat.digitChar_ne ' ' rfl h
  · exact Nat.digitChar_ne '\n' rfl h

theorem toDigits_ten_inj {n' : Nat} (h : Nat.toDigits 10 n = Nat.toDigits 10 n') : n = n' := by
  rw [← Nat.ofDigitChars_ten_toDigits (n := n), h, Nat.ofDigitChars_ten_toDigits]

theorem delimited_decimal (hstop : ∀ d, ¬ stop (Nat.digitChar d)) : Delimited stop (Nat.toDigits 10) := by
  apply Delimited.of_free
  · exact free_toDigits (by decide) hstop
  · intro n n' h
    exact toDigits_ten_inj h

theorem toList_toString_nat (n : Nat) : (toString n).toList = Nat.toDigits 10 n := by
  rw [Nat.toString_eq_ofList_toDigits, String.toList_ofList]

theorem delimited_word : Delimited Gap (fun w : Word => (toString w).toList) := by
  have h := (delimited_decimal not_gap_digitChar).comap UInt32.toNat (fun _ _ => UInt32.toNat_inj.1)
  simp only [← toList_toString_nat] at h
  exact h

theorem delimited_byte (hstop : ∀ d, ¬ stop (Nat.digitChar d)) :
    Delimited stop (fun w : UInt8 => (toString w).toList) := by
  have h := (delimited_decimal hstop).comap UInt8.toNat (fun _ _ => UInt8.toNat_inj.1)
  simp only [← toList_toString_nat] at h
  exact h

theorem toList_toString_ofNat (n : Nat) : (toString (Int.ofNat n)).toList = Nat.toDigits 10 n := toList_toString_nat n

theorem toList_toString_negSucc (n : Nat) : (toString (Int.negSucc n)).toList = '-' :: Nat.toDigits 10 (n + 1) := by
  rw [show toString (Int.negSucc n) = "-" ++ toString (n + 1) from rfl, String.toList_append, toList_toString_nat]
  rfl

theorem minus_not_mem_toDigits (n : Nat) : '-' ∉ Nat.toDigits 10 n := by
  intro h
  obtain ⟨d, -, hd⟩ := exists_of_mem_toDigits (by decide) h
  exact Nat.digitChar_ne '-' rfl hd.symm

theorem delimited_int : Delimited Gap (fun i : Int => (toString i).toList) := by
  apply Delimited.of_free
  · intro i c hc
    cases i with
    | ofNat n =>
      rw [toList_toString_ofNat] at hc
      exact free_toDigits (by decide) not_gap_digitChar n c hc
    | negSucc n =>
      rw [toList_toString_negSucc] at hc
      rcases mem_cons.1 hc with rfl | hc
      · simp [Gap]
      · exact free_toDigits (by decide) not_gap_digitChar (n + 1) c hc
  · intro i i' h
    cases i with
    | ofNat n =>
      cases i' with
      | ofNat n' =>
        rw [toList_toString_ofNat, toList_toString_ofNat] at h
        rw [toDigits_ten_inj h]
      | negSucc n' =>
        rw [toList_toString_ofNat, toList_toString_negSucc] at h
        exact absurd (h ▸ mem_cons_self) (minus_not_mem_toDigits n)
    | negSucc n =>
      cases i' with
      | ofNat n' =>
        rw [toList_toString_ofNat, toList_toString_negSucc] at h
        exact absurd (h ▸ mem_cons_self) (minus_not_mem_toDigits n')
      | negSucc n' =>
        rw [toList_toString_negSucc, toList_toString_negSucc] at h
        rw [Nat.succ.inj (toDigits_ten_inj (cons.inj h).2)]

theorem delimited_literal : Delimited Gap (fun i : Int32 => (toString i).toList) :=
  delimited_int.comap Int32.toInt (fun _ _ => Int32.toInt_inj.1)

def hexDigit (c : Char) : Nat := if c.isDigit then c.toNat - 48 else c.toNat - 87

def hexValue (cs : List Char) : Nat := cs.foldl (fun n c => 16 * n + hexDigit c) 0

theorem hexDigit_digitChar {d : Nat} (h : d < 16) : hexDigit (Nat.digitChar d) = d := by
  revert d
  decide

theorem hexValue_toDigits (n : Nat) : hexValue (Nat.toDigits 16 n) = n := by
  induction n using Nat.strongRecOn with
  | ind n ih =>
    rw [Nat.toDigits_eq_if (by decide)]
    split
    case isTrue hlt => 
      rw [hexValue, foldl_cons, foldl_nil, hexDigit_digitChar hlt]
      omega
    case isFalse hle =>
      have hquotient : hexValue (Nat.toDigits 16 (n / 16)) = n / 16 := ih _ (by omega)
      rw [hexValue, foldl_append, ← hexValue, hquotient, foldl_cons, foldl_nil,
        hexDigit_digitChar (Nat.mod_lt _ (by decide))]
      omega

theorem hexValue_replicate_append (k : Nat) (cs : List Char) : hexValue (replicate k '0' ++ cs) = hexValue cs := by
  induction k with
  | zero => rfl
  | succ k ih => exact ih

theorem delimited_hexPadded (width : Nat) : Delimited Gap (fun n => (hexPadded width n).toList) := by
  apply Delimited.of_free
  · intro n c hc
    rw [hexPadded, String.toList_ofList, mem_append] at hc
    rcases hc with hc | hc
    · obtain rfl : c = '0' := eq_of_mem_replicate hc
      simp [Gap]
    · exact free_toDigits (by decide) not_gap_digitChar n c hc
  · intro n n' h
    rw [hexPadded, hexPadded, String.toList_ofList, String.toList_ofList] at h
    have hvalue := congrArg hexValue h
    rwa [hexValue_replicate_append, hexValue_replicate_append, hexValue_toDigits, hexValue_toDigits] at hvalue

/-! ## Quoted texts -/

/-- Reads one character back from between quotes, and what follows it; a quote ends the text. -/
def unescape : List Char → Option (Char × List Char)
  | [] => none
  | c :: rest =>
    if c = '"' then none
    else if c = '\\' then
      match rest with
      | [] => none
      | d :: rest =>
        if d = 'u' then some (Char.ofNat (hexValue (rest.tail.takeWhile (· != '\x7d'))),
            (rest.tail.dropWhile (· != '\x7d')).tail)
        else if d = 't' then some ('\t', rest)
        else if d = 'r' then some ('\r', rest)
        else if d = 'n' then some ('\n', rest)
        else if d = '0' then some (Char.ofNat 0, rest)
        else some (d, rest)
    else some (c, rest)

theorem unescape_escape_append (c : Char) (rest : List Char) :
    unescape ((escape c).toList ++ rest) = some (c, rest) := by
  unfold escape
  split
  case isTrue h => subst h; rfl
  split
  case isTrue h => subst h; rfl
  split
  case isTrue h => subst h; rfl
  split
  case isTrue h => subst h; rfl
  split
  case isTrue h => subst h; rfl
  split
  case isTrue h => subst h; rfl
  split
  case isTrue hunprintable =>
    have hdigits : ∀ d ∈ Nat.toDigits 16 c.toNat, (d != '\x7d') = true := by
      intro d hd
      obtain ⟨k, -, rfl⟩ := exists_of_mem_toDigits (by decide) hd
      exact bne_iff_ne.2 (Nat.digitChar_ne '\x7d' rfl)
    simp only [String.toList_append, hex, String.toList_ofList, append_assoc]
    simp [unescape, takeWhile_append_of_pos hdigits, dropWhile_append_of_pos hdigits, hexValue_toDigits]
  case isFalse hquote hslash _ _ _ _ _ => simp [unescape, *]

/-- Escaped text ends at the first quote, and determines what was escaped. -/
theorem escaped_append_inj {cs' : List Char} (h : cs.flatMap (fun c => (escape c).toList) ++ '"' :: rest
      = cs'.flatMap (fun c => (escape c).toList) ++ '"' :: rest') :
    cs = cs' ∧ rest = rest' := by
  induction cs generalizing cs' with
  | nil =>
    cases cs' with
    | nil => exact ⟨rfl, (cons.inj h).2⟩
    | cons c' cs' =>
      have hread := congrArg unescape h
      rw [flatMap_cons, append_assoc, unescape_escape_append] at hread
      exact absurd hread (by simp [unescape])
  | cons c cs ih =>
    cases cs' with
    | nil =>
      have hread := congrArg unescape h
      rw [flatMap_cons, append_assoc, unescape_escape_append] at hread
      exact absurd hread (by simp [unescape])
    | cons c' cs' =>
      have hread := congrArg unescape h
      rw [flatMap_cons, flatMap_cons, append_assoc, append_assoc,
        unescape_escape_append, unescape_escape_append] at hread
      obtain ⟨rfl, htext⟩ := Prod.mk.inj (Option.some.inj hread)
      obtain ⟨rfl, hrests⟩ := ih htext
      exact ⟨rfl, hrests⟩

theorem toList_quote (s : String) :
    (quote s).toList = '"' :: (s.toList.flatMap (fun c => (escape c).toList) ++ ['"']) := by
  simp [quote, String.toList_append, String.toList_join, flatMap_map]

theorem delimited_quote : Delimited stop (fun s => (quote s).toList) := by
  intro s s' rest rest' _ _ h
  simp only [toList_quote, cons_append, append_assoc, nil_append] at h
  obtain ⟨htext, hrests⟩ := escaped_append_inj (cons.inj h).2
  exact ⟨String.toList_inj.1 htext, hrests⟩

end Text

end Shader
