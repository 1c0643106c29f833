import Mathlib.Algebra.Order.Ring.Nat
import Mathlib.Data.BitVec

/-!
# Strings

The functions of `string.c` that path resolution uses. A string is the list of its characters
without the terminator; what is behind the end of the list is the terminator, and a function that
reads past it, or writes past the end of a buffer, returns `none`.

`safe_strcmp` stops at the end of the shorter string, so it compares for prefixes in either
direction. `strtok` returns token number `token_number`, on strings of non-empty tokens.
-/

namespace DionysOS.Definitions.Strings

open List Option

def safeStrcmp : List Char → List Char → ℕ → Bool
  | c :: str1, d :: str2, maxLen + 1 => if c ≠ d then false else safeStrcmp str1 str2 maxLen
  | _, _, _ => true

/-- The loop of `strtok`, from the character at `str` on, with the token written so far. The second
result is whether `*str` is the terminator at the end. -/
def strtokLoop (delimiter : Char) (tokenNumber : ℕ) :
    List Char → ℕ → List Char → Option (List Char × Bool)
  | [], _, token => some (token, true)
  | c :: str, currentToken, token =>
      if currentToken = tokenNumber ∧ c = delimiter then some (token, false)
      else if c = delimiter ∧ tokenNumber ≠ currentToken then
        match str with
        -- The loop steps over the terminator.
        | [] => none
        | d :: str =>
            strtokLoop delimiter tokenNumber str (currentToken + 1)
              (if tokenNumber = currentToken + 1 then token ++ [d] else token)
      else
        strtokLoop delimiter tokenNumber str currentToken
          (if tokenNumber = currentToken then token ++ [c] else token)

/-- `strtok` with a buffer of `size` bytes for the token. -/
def strtok (size : ℕ) (str : List Char) (delimiter : Char) (tokenNumber : ℕ) :
    Option (List Char × Bool) := do
  let str := if str.head? = some delimiter then str.tail else str
  let (token, last) ← strtokLoop delimiter tokenNumber str 1 []
  if token.length < size then some (token, last) else none

/-- The loop of `strtok` in a zeroed buffer; `room` says whether there is another zero behind the
terminator. -/
def strtokZeroedLoop (room : Bool) (delimiter : Char) (tokenNumber : ℕ) :
    List Char → ℕ → List Char → Option (List Char × Bool)
  | [], _, token => some (token, true)
  | c :: str, currentToken, token =>
      if currentToken = tokenNumber ∧ c = delimiter then some (token, false)
      else if c = delimiter ∧ tokenNumber ≠ currentToken then
        match str with
        | [] => if room then some (token, true) else none
        | d :: str =>
            strtokZeroedLoop room delimiter tokenNumber str (currentToken + 1)
              (if tokenNumber = currentToken + 1 then token ++ [d] else token)
      else
        strtokZeroedLoop room delimiter tokenNumber str currentToken
          (if tokenNumber = currentToken then token ++ [c] else token)

theorem safeStrcmp_iff : ∀ {str1 str2 : List Char} {maxLen : ℕ}, str2.length ≤ maxLen →
    (safeStrcmp str1 str2 maxLen = true ↔ str1 <+: str2 ∨ str2 <+: str1)
  | [], str2, maxLen, _ => by simp [safeStrcmp]
  | c :: str1, [], maxLen, _ => by simp [safeStrcmp]
  | c :: str1, d :: str2, 0, hlen => by simp at hlen
  | c :: str1, d :: str2, maxLen + 1, hlen => by
      have hrest := @safeStrcmp_iff str1 str2 maxLen (Nat.le_of_succ_le_succ hlen)
      by_cases hsame : c = d
      · subst hsame
        simp [safeStrcmp, hrest, cons_prefix_cons]
      · simp [safeStrcmp, hsame, cons_prefix_cons, Ne.symm hsame]

theorem safeStrcmp_comm : ∀ (str1 str2 : List Char) (maxLen : ℕ),
    safeStrcmp str1 str2 maxLen = safeStrcmp str2 str1 maxLen
  | [], [], _ => rfl
  | [], _ :: _, _ => by simp [safeStrcmp]
  | _ :: _, [], _ => by simp [safeStrcmp]
  | _ :: _, _ :: _, 0 => by simp [safeStrcmp]
  | c :: str1, d :: str2, maxLen + 1 => by
      simp only [safeStrcmp, safeStrcmp_comm str1 str2 maxLen, eq_comm, ne_eq]

theorem safeStrcmp_self : ∀ (str : List Char) (maxLen : ℕ), safeStrcmp str str maxLen = true
  | [], _ => by simp [safeStrcmp]
  | _ :: _, 0 => by simp [safeStrcmp]
  | c :: str, maxLen + 1 => by simp [safeStrcmp, safeStrcmp_self str maxLen]

def delimited (delimiter : Char) (tokens : List (List Char)) : List Char :=
  tokens.flatMap (delimiter :: ·)

variable {room : Bool} {delimiter delim : Char} {tokenNumber currentToken : ℕ}

theorem strtokLoop_eq : ∀ (str : List Char) (currentToken : ℕ) (token : List Char),
    strtokLoop delim tokenNumber str currentToken token =
      strtokZeroedLoop false delim tokenNumber str currentToken token
  | [], _, _ => rfl
  | [c], _, _ => by simp [strtokLoop, strtokZeroedLoop]
  | c :: d :: str, currentToken, token => by
      rw [strtokLoop, strtokZeroedLoop, strtokLoop_eq str, strtokLoop_eq (d :: str)]

theorem strtokZeroedLoop_of_ne {c : Char} (hc : c ≠ delim) (str token : List Char) :
    strtokZeroedLoop room delim tokenNumber (c :: str) currentToken token =
      strtokZeroedLoop room delim tokenNumber str currentToken
        (if tokenNumber = currentToken then token ++ [c] else token) := by
  cases str <;> simp [strtokZeroedLoop, hc]

theorem strtokZeroedLoop_stop (str token : List Char) :
    strtokZeroedLoop room delim currentToken (delim :: str) currentToken token =
      some (token, false) := by
  cases str <;> simp [strtokZeroedLoop]

theorem strtokZeroedLoop_skip (hearlier : tokenNumber ≠ currentToken) (rest token : List Char) :
    ∀ {chars : List Char}, delim ∉ chars →
      strtokZeroedLoop room delim tokenNumber (chars ++ rest) currentToken token =
        strtokZeroedLoop room delim tokenNumber rest currentToken token
  | [], _ => rfl
  | c :: chars, hchars => by
      obtain ⟨hc, hrest⟩ := not_or.mp (mt mem_cons.mpr hchars)
      have hloop := strtokZeroedLoop_skip hearlier rest token hrest
      rw [cons_append, strtokZeroedLoop_of_ne (Ne.symm hc), if_neg hearlier, hloop]

theorem strtokZeroedLoop_copy (rest : List Char) : ∀ {chars : List Char} (token : List Char),
    delim ∉ chars →
      strtokZeroedLoop room delim currentToken (chars ++ rest) currentToken token =
        strtokZeroedLoop room delim currentToken rest currentToken (token ++ chars)
  | [], token, _ => by simp
  | c :: chars, token, hchars => by
      obtain ⟨hc, hrest⟩ := not_or.mp (mt mem_cons.mpr hchars)
      have hloop := strtokZeroedLoop_copy rest (token ++ [c]) hrest
      rw [cons_append, strtokZeroedLoop_of_ne (Ne.symm hc), if_pos rfl, hloop, append_assoc,
        singleton_append]

theorem strtokZeroedLoop_next (hearlier : tokenNumber ≠ currentToken) {c : Char} (hc : c ≠ delim)
    (rest : List Char) :
    strtokZeroedLoop room delim tokenNumber (delim :: c :: rest) currentToken [] =
      strtokZeroedLoop room delim tokenNumber (c :: rest) (currentToken + 1) [] := by
  rw [strtokZeroedLoop_of_ne hc, strtokZeroedLoop, if_neg (fun h ↦ hearlier h.1.symm), if_pos ⟨rfl, hearlier⟩]

/-- **The tokens.** The loop finds every token, and nothing behind the last one, and says whether
the string has been read to its end. -/
theorem strtokZeroedLoop_spec : ∀ (tokens : List (List Char)) {first : List Char} (num current : ℕ),
    (∀ token ∈ first :: tokens, token ≠ [] ∧ delimiter ∉ token) →
      strtokZeroedLoop room delimiter (current + num) (first ++ delimited delimiter tokens) current [] =
        some ((first :: tokens).getD num [], decide (tokens.length ≤ num))
  | tokens, first, 0, current, htokens => by
      rw [add_zero, strtokZeroedLoop_copy _ _ (htokens first mem_cons_self).2, nil_append]
      cases tokens with
      | nil => rfl
      | cons next tokens =>
        exact strtokZeroedLoop_stop ..
  | [], first, num + 1, current, htokens => by
      have hearlier : current + (num + 1) ≠ current := by omega
      rw [strtokZeroedLoop_skip hearlier _ _ (htokens first mem_cons_self).2]
      rfl
  | next :: tokens, first, num + 1, current, htokens => by
      have hearlier : current + (num + 1) ≠ current := by omega
      have hnext := htokens next (by simp)
      rw [strtokZeroedLoop_skip hearlier _ _ (htokens first mem_cons_self).2]
      obtain ⟨c, chars, rfl⟩ := exists_cons_of_ne_nil hnext.1
      have hc : c ≠ delimiter := fun h ↦ hnext.2 (h ▸ mem_cons_self)
      have hloop := strtokZeroedLoop_spec tokens num (current + 1)
        (fun other hother ↦ htokens other (mem_cons_of_mem _ hother))
      rw [delimited, flatMap_cons, cons_append, cons_append,
        strtokZeroedLoop_next hearlier hc, show current + (num + 1) = current + 1 + num by omega]
      refine hloop.trans ?_
      simp

theorem head?_delimited_ne (tokens : List (List Char)) {first : List Char}
    (hfirst : first ≠ [] ∧ delimiter ∉ first) :
    (first ++ delimited delimiter tokens).head? ≠ some delimiter := by
  obtain ⟨c, chars, rfl⟩ := exists_cons_of_ne_nil hfirst.1
  have hc : c ≠ delimiter := fun h ↦ hfirst.2 (h ▸ mem_cons_self)
  simpa using hc

theorem strtok_spec {tokens : List (List Char)} {first : List Char} {num size : ℕ}
    (htokens : ∀ token ∈ first :: tokens, token ≠ [] ∧ delimiter ∉ token) {token : List Char}
    (htoken : (first :: tokens)[num]? = some token) :
    strtok size (first ++ delimited delimiter tokens) delimiter (num + 1) =
      if token.length < size then some (token, decide (num = tokens.length)) else none := by
  have hhead := head?_delimited_ne tokens (htokens first mem_cons_self)
  have hloop := @strtokZeroedLoop_spec false delimiter tokens first num 1 htokens
  obtain ⟨hlt, -⟩ := List.getElem?_eq_some_iff.mp htoken
  have hlast : tokens.length ≤ num ↔ num = tokens.length := by
    simp only [length_cons] at hlt
    omega
  rw [add_comm, getD_eq_getElem?_getD, htoken, getD_some, ← strtokLoop_eq] at hloop
  simp only [strtok, if_neg hhead, hloop, hlast, bind_eq_bind, bind_some]

/-- The components joined by single delimiters, with or without one in front. -/
def joined (delimiter : Char) (leading : Bool) (components : List (List Char)) : List Char :=
  (if leading then [delimiter] else []) ++ [delimiter].intercalate components

theorem intercalate_cons (first : List Char) : ∀ tokens : List (List Char),
    [delim].intercalate (first :: tokens) = first ++ delimited delim tokens
  | [] => by simp [intercalate, delimited]
  | next :: tokens => by
      have hrest := intercalate_cons next tokens
      simp only [intercalate, delimited, flatMap_cons] at hrest ⊢
      simp [hrest]

theorem start_joined {components : List (List Char)}
    (hcomponents : ∀ component ∈ components, component ≠ [] ∧ delimiter ∉ component)
    (leading : Bool) :
    (if (joined delimiter leading components).head? = some delimiter then
      (joined delimiter leading components).tail else joined delimiter leading components) =
      [delimiter].intercalate components := by
  cases leading with
  | true => simp [joined]
  | false =>
    cases components with
    | nil => rfl
    | cons first tokens =>
      have hhead := head?_delimited_ne tokens (hcomponents first mem_cons_self)
      rw [← intercalate_cons] at hhead
      exact if_neg hhead

/-- **Tokenising a path.** Token number `number` is the component of that number, or empty behind
the last one; a buffer of `size` bytes takes it with its terminator. `LAST_TOKEN` is returned from
the last component on. -/
theorem strtok_joined {components : List (List Char)}
    (hcomponents : ∀ component ∈ components, component ≠ [] ∧ delimiter ∉ component)
    (leading : Bool) {number : ℕ} (hnumber : 1 ≤ number) (size : ℕ) :
    strtok size (joined delimiter leading components) delimiter number =
      if (components.getD (number - 1) []).length < size then
        some (components.getD (number - 1) [], decide (components.length ≤ number))
      else none := by
  obtain ⟨number, rfl⟩ := Nat.exists_eq_add_of_le hnumber
  have hloop : strtokLoop delimiter (1 + number) ([delimiter].intercalate components) 1 [] =
      some (components.getD number [], decide (components.length ≤ 1 + number)) := by
    cases components with
    | nil => simp [intercalate, strtokLoop]
    | cons first tokens =>
      rw [intercalate_cons, strtokLoop_eq, strtokZeroedLoop_spec tokens number 1 hcomponents]
      simp [add_comm 1]
  simp only [strtok, start_joined hcomponents leading, hloop, Nat.add_sub_cancel_left,
    bind_eq_bind, bind_some]

/-- The second component of a path, and what is behind the last one. -/
theorem strtok_joined_twoComponents :
    joined '/' true [['u'], ['b', 'i', 'n']] = ['/', 'u', '/', 'b', 'i', 'n'] ∧
    strtok 4 (joined '/' true [['u'], ['b', 'i', 'n']]) '/' 2 = some (['b', 'i', 'n'], true) ∧
    strtok 4 (joined '/' false [['u'], ['b', 'i', 'n']]) '/' 3 = some ([], true) :=
  ⟨by decide, strtok_joined (by decide) true (by decide) 4,
    strtok_joined (by decide) false (by decide) 4⟩

end DionysOS.Definitions.Strings
