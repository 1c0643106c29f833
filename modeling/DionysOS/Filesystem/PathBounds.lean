import DionysOS.Filesystem.Mount

/-!
# Bounds of the tokenizer

`strtok` reads token `token_number` of a path from the start. Behind each delimiter that it steps over
it takes one character without looking at it: a token can begin with a slash, and behind a slash at the
end of the path it takes the terminator. `tokens` are the tokens in this sense, with an empty one for
such a slash. `parse_path` asks for one after the other, as long as it finds the children that they
name (`vnodeLookup_inBounds_iff`).
-/

namespace DionysOS.Filesystem.Mount

open DataStructures Definitions.Strings Vfs List Option

/-- The token numbers that the loop of `parse_path` passes to `strtok`. -/
def requests (lookup : Lookup) (path : List Char) : ℕ → ℕ → VnodeMemory → Ptr → List ℕ
  | 0, _, _, _ => []
  | fuel + 1, tokenNumber, memory, vnode =>
      tokenNumber ::
        match strtok VFS_MAX_NAME_LENGTH path '/' tokenNumber with
        | none => []
        | some (token, last) =>
            match findVnodeChild lookup memory vnode token with
            | none => []
            | some (memory, child) =>
                if child = NULL ∨ last = true then []
                else requests lookup path fuel (tokenNumber + 1) memory child

/-- Where the walk along a path starts. -/
def startOf (places : Places) (memory : VnodeMemory) (path : List Char) : Ptr :=
  if path.head? = some '/' then enter memory places.vfsRoot else places.currentWorkingDir

/-- No call of `strtok` in `vnode_lookup` reads past the terminator of the path or writes past the
end of the token buffer. -/
def LookupInBounds (lookup : Lookup) (places : Places) (memory : VnodeMemory) (path : List Char) :
    Prop :=
  let rest := path.dropWhile (· == '/')
  rest ≠ [] → ∀ tokenNumber ∈ requests lookup rest rest.length 1 memory (startOf places memory path),
    (strtok VFS_MAX_NAME_LENGTH rest '/' tokenNumber).isSome

/-- The first token that `strtok` finds in a string, and the others. -/
def tokens (delimiter : Char) : List Char → List Char × List (List Char)
  | [] => ([], [])
  | [c] => if c = delimiter then ([], [[]]) else ([c], [])
  | c :: d :: str =>
      if c = delimiter then ([], (d :: (tokens delimiter str).1) :: (tokens delimiter str).2)
      else (c :: (tokens delimiter (d :: str)).1, (tokens delimiter (d :: str)).2)

def allTokens (delimiter : Char) (str : List Char) : List (List Char) :=
  (tokens delimiter str).1 :: (tokens delimiter str).2

/-- Each token that is looked up is not empty and fits in the buffer. -/
def TokensFit (lookup : Lookup) : List (List Char) → VnodeMemory → Ptr → Prop
  | [], _, _ => True
  | token :: rest, memory, vnode =>
      token ≠ [] ∧ token.length < VFS_MAX_NAME_LENGTH ∧
        ∀ after child, findVnodeChild lookup memory vnode token = some (after, child) →
          child ≠ NULL → TokensFit lookup rest after child

variable {delimiter delim c : Char} {path : List Char} {lookup : Lookup}

theorem tokens_of_ne (hc : c ≠ delim) (str : List Char) :
    tokens delim (c :: str) = (c :: (tokens delim str).1, (tokens delim str).2) := by
  cases str <;> simp [tokens, hc]

theorem length_tokens_le : ∀ str : List Char, (tokens delim str).2.length ≤ str.length
  | [] => le_rfl
  | [c] => by
      rw [tokens]
      split <;> simp
  | c :: d :: str => by
      have hshort := @length_tokens_le str
      have hlong := @length_tokens_le (d :: str)
      rw [length_cons] at hlong
      rw [tokens]
      split <;> simp only [length_cons] <;> omega

theorem strtokLoop_current (num : ℕ) : ∀ (str token : List Char),
    strtokLoop delim num str num token =
      some (token ++ (tokens delim str).1, (tokens delim str).2.isEmpty)
  | [], token => by simp [strtokLoop, tokens]
  | [c], token => by
      by_cases hc : c = delim <;> simp [strtokLoop, tokens, hc]
  | c :: d :: str, token => by
      by_cases hc : c = delim
      · simp [strtokLoop, tokens, hc]
      · have hrest := strtokLoop_current num (d :: str) (token ++ [c])
        rw [strtokLoop, if_neg (fun h ↦ hc h.2), if_neg (fun h ↦ hc h.1), if_pos rfl, hrest]
        simp [tokens, hc]

theorem strtokLoop_later {token : List Char} {back : List (List Char)} :
    ∀ {str : List Char} {front : List (List Char)} (current : ℕ),
      (tokens delimiter str).2 = front ++ token :: back → [] ∉ front →
        strtokLoop delimiter (current + (front.length + 1)) str current [] =
          if token = [] then none else some (token, back.isEmpty)
  | [], front, current, htokens, _ => by simp [tokens] at htokens
  | [c], front, current, htokens, hfront => by
      by_cases hc : c = delimiter
      · simp only [tokens, hc, if_true, singleton_eq_append_iff, cons_eq_cons] at htokens
        obtain ⟨rfl, rfl, rfl⟩ | ⟨-, h⟩ := htokens
        · simp [strtokLoop, hc]
        · cases h
      · simp [tokens, hc] at htokens
  | c :: d :: str, front, current, htokens, hfront => by
      have hlater : current + (front.length + 1) ≠ current := by omega
      by_cases hc : c = delimiter
      · rw [strtokLoop, if_neg (fun h ↦ hlater h.1.symm), if_pos ⟨hc, hlater⟩]
        rw [tokens, if_pos hc] at htokens
        cases front with
        | nil =>
          cases htokens
          rw [length_nil, zero_add, if_pos rfl, strtokLoop_current]
          simp
        | cons first front =>
          obtain ⟨-, htokens⟩ := cons.inj htokens
          have hrest := strtokLoop_later (current + 1) htokens fun h ↦ hfront (mem_cons_of_mem _ h)
          rw [length_cons, if_neg (by omega), show current + (front.length + 1 + 1) =
            current + 1 + (front.length + 1) by omega, hrest]
      · rw [tokens, if_neg hc] at htokens
        have hrest := strtokLoop_later current htokens hfront
        rw [strtokLoop, if_neg (fun h ↦ hc h.2), if_neg (fun h ↦ hc h.1), if_neg hlater, hrest]

/-- **The tokens.** A call of `strtok` that is preceded by calls for the tokens before stays in bounds
exactly if the token is not empty and fits in the buffer. -/
theorem strtok_tokens {size : ℕ} (hc : c ≠ delimiter) {token : List Char} {front back : List (List Char)}
    (htokens : allTokens delimiter (c :: path) = front ++ token :: back) (hfront : [] ∉ front) :
    strtok size (c :: path) delimiter (front.length + 1) =
      if token ≠ [] ∧ token.length < size then some (token, back.isEmpty) else none := by
  have hhead : (c :: path).head? ≠ some delimiter := by simpa using hc
  simp only [strtok, if_neg hhead]
  cases front with
  | nil =>
    obtain ⟨hfirst, hback⟩ := cons.inj htokens
    have htoken : token ≠ [] := by
      rw [← hfirst, tokens_of_ne hc]
      exact cons_ne_nil _ _
    rw [length_nil, strtokLoop_current, hfirst, hback]
    simp [htoken]
  | cons first front =>
    have hlater := strtokLoop_later 1 (cons.inj htokens).2 fun h ↦ hfront (mem_cons_of_mem _ h)
    rw [length_cons, add_comm _ 1, hlater]
    by_cases htoken : token = [] <;> simp [htoken]

theorem requests_inBounds_iff (hc : c ≠ '/') : ∀ {rest front : List (List Char)} {fuel : ℕ}
    {mem : VnodeMemory} {vnode : Ptr},
    allTokens '/' (c :: path) = front ++ rest → [] ∉ front → rest.length ≤ fuel → rest ≠ [] →
      ((∀ num ∈ requests lookup (c :: path) fuel (front.length + 1) mem vnode,
          (strtok VFS_MAX_NAME_LENGTH (c :: path) '/' num).isSome) ↔
        TokensFit lookup rest mem vnode)
  | token :: back, front, fuel + 1, mem, vnode, htokens, hfront, hfuel, _ => by
      have hstrtok := @strtok_tokens '/' c path VFS_MAX_NAME_LENGTH hc token front back htokens hfront
      rw [requests, forall_mem_cons, TokensFit, ← and_assoc, hstrtok]
      by_cases hfit : token ≠ [] ∧ token.length < VFS_MAX_NAME_LENGTH
      · simp only [if_pos hfit, isSome_some, true_and]
        cases hfind : findVnodeChild lookup mem vnode token with
        | none => simp [hfit]
        | some found =>
          obtain ⟨after, child⟩ := found
          by_cases hchild : child = NULL
          · simp [hchild, hfit]
          · cases back with
            | nil => simp [TokensFit, hfit]
            | cons next back =>
              have hrest := @requests_inBounds_iff hc (next :: back) (front ++ [token]) fuel after child
                (by simpa using htokens) (by simpa [hfront] using hfit.1.symm)
                (by simpa using hfuel) (cons_ne_nil _ _)
              rw [length_append, length_singleton] at hrest
              simp [hchild, hfit, hrest]
      · simp [hfit]

/-- **Path parsing stays in bounds** exactly if each token that is looked up is not empty and shorter
than the buffer. -/
theorem vnodeLookup_inBounds_iff (lookup : Lookup) (places : Places) (memory : VnodeMemory)
    (path : List Char) :
    LookupInBounds lookup places memory path ↔
      (path.dropWhile (· == '/') ≠ [] →
        TokensFit lookup (allTokens '/' (path.dropWhile (· == '/'))) memory
          (startOf places memory path)) := by
  refine imp_congr_right fun hne ↦ ?_
  cases hpath : path.dropWhile (· == '/') with
  | nil => exact absurd hpath hne
  | cons c rest =>
    have hc : c ≠ '/' := by
      have hhead := head?_dropWhile_not (· == '/') path
      simpa [hpath] using hhead
    refine requests_inBounds_iff hc rfl not_mem_nil ?_ (cons_ne_nil _ _)
    have hlength := @length_tokens_le '/' rest
    simp only [allTokens, tokens_of_ne hc, length_cons]
    omega

/-- A slash behind a directory, and a name of 128 characters. -/
theorem vnodeLookup_not_inBounds :
    ¬LookupInBounds noLookup ⟨1, 1⟩ siblings ['/', 'a', '/'] ∧
      ¬LookupInBounds noLookup ⟨1, 1⟩ siblings (replicate 128 'a') := by
  constructor
  · intro hbounds
    exact absurd (hbounds (by decide) 2 (by decide +kernel)) (by decide +kernel)
  · intro hbounds
    exact absurd (hbounds (by decide) 1 (by decide +kernel)) (by decide +kernel)

end DionysOS.Filesystem.Mount
