import DionysOS.Filesystem.FindChild

/-!
# The code takes the walk along comparable names

`followPath_spec` follows the loop of `parse_path` along the tokens of the path, with
`findVnodeChild_spec` for each of them, and `vnodeLookup_spec` crosses the mount on the root. The
main theorem is `vnodeLookup_exact_iff`.
-/

namespace DionysOS.Filesystem.Vfs

open Definitions.Strings List Option

def HasOutcome (result : Option (Vnode × Option Pointer)) (before : Vnode) : Outcome → Prop
  | .fault => result = none
  | .missing => ∃ after, result = some (after, none)
  | .found names reached => ∃ after pointer, result = some (after, some pointer) ∧
      SameVnode before after ∧ follow after pointer.position = some (names, reached) ∧
      pointer.mounted = reached.mountedVnode.isSome

section Replaced

variable {vnode child : Vnode} {idx : ℕ}

theorem replaceChild_of_none (hmounted : vnode.mountedVnode = none) (child : Vnode) :
    replaceChild vnode idx child = vnode.setChild idx child := by
  rw [replaceChild, hmounted]

theorem replaceChild_of_some {mounted : Vnode} (hmounted : vnode.mountedVnode = some mounted)
    (child : Vnode) :
    replaceChild vnode idx child = vnode.setMounted (mounted.setChild idx child) := by
  rw [replaceChild, hmounted]

theorem sameVnode_replaceChild (vnode : Vnode) (idx : ℕ) (child : Vnode) :
    SameVnode vnode (replaceChild vnode idx child) := by
  cases hmounted : vnode.mountedVnode with
  | none =>
    rw [replaceChild_of_none hmounted]
    exact ⟨rfl, rfl⟩
  | some mounted =>
    rw [replaceChild_of_some hmounted]
    exact ⟨rfl, by rw [hmounted]; rfl⟩

theorem vnodeChildren_replaceChild (vnode : Vnode) (idx : ℕ) (child : Vnode) :
    (entered (replaceChild vnode idx child)).vnodeChildren =
      (entered vnode).vnodeChildren.set idx (some child) := by
  cases hmounted : vnode.mountedVnode with
  | none =>
    have hstill : (vnode.setChild idx child).mountedVnode = none := hmounted
    rw [replaceChild_of_none hmounted, entered, entered, hstill, hmounted]
    rfl
  | some mounted =>
    rw [replaceChild_of_some hmounted, entered, entered, hmounted]
    rfl

theorem follow_replaceChild (hidx : idx < (entered vnode).vnodeChildren.length)
    (pos : List ℕ) :
    follow (replaceChild vnode idx child) (idx :: pos) =
      (follow child pos).map fun result ↦ (child.vnodeName :: result.1, result.2) := by
  have hget : (entered (replaceChild vnode idx child)).vnodeChildren[idx]? =
      some (some child) := by
    rw [vnodeChildren_replaceChild, getElem?_set_self hidx]
  simp only [follow, hget, join_some, bind_eq_bind, bind_some]
  cases follow child pos <;> rfl

end Replaced

/-- A class of sound vnodes that a walk does not leave. -/
structure SoundVnodes (disk : Disk) (Sound : Vnode → Prop) : Prop where
  tree : ∀ {vnode}, Sound vnode → SoundTree disk vnode
  visible : ∀ {vnode child}, Sound vnode → vnode.vnodeType = .directory →
    child ∈ visible disk vnode → Sound child

variable {disk : Disk} {vnode : Vnode} {names : List (List Char)}

theorem SoundDisk.soundVnodes (hdisk : SoundDisk disk) :
    SoundVnodes disk (SoundTree disk) :=
  ⟨id, fun hsound htype hchild ↦ hsound.of_mem_visible htype hdisk hchild⟩

theorem followPath_spec {disk : Disk} {Sound : Vnode → Prop} (hvnodes : SoundVnodes disk Sound)
    {first : List Char} {tokens : List (List Char)}
    (htokens : ∀ token ∈ first :: tokens, token ≠ [] ∧ '/' ∉ token) :
    ∀ (names : List (List Char)) (num fuel : ℕ) {name : List Char} {vnode : Vnode},
      (first :: tokens).drop num = name :: names → names.length < fuel → Sound vnode →
      HasOutcome (followPath disk (first ++ delimited '/' tokens) fuel (num + 1) vnode) vnode
        (prefixWalk disk vnode (name :: names))
  | names, num, 0, name, vnode, _, hfuel, _ => absurd hfuel (Nat.not_lt_zero _)
  | names, num, fuel + 1, name, vnode, hdrop, hfuel, hvnode => by
      have hsound := hvnodes.tree hvnode
      have hget : (first :: tokens)[num]? = some name := by
        rw [← head?_drop, hdrop]
        rfl
      have hlast : decide (num = tokens.length) = names.isEmpty := by
        have hlen := congrArg length hdrop
        simp only [length_drop, length_cons] at hlen
        cases names with
        | nil =>
          simp only [length_nil] at hlen
          simp only [isEmpty_nil, decide_eq_true_eq]
          omega
        | cons next names =>
          simp only [length_cons] at hlen
          simp only [isEmpty_cons, decide_eq_false_iff_not]
          omega
      have htoken := @strtok_spec '/' tokens first num VFS_MAX_NAME_LENGTH htokens name hget
      rw [hlast] at htoken
      by_cases hlong : name.length < VFS_MAX_NAME_LENGTH
      swap
      · have hunreadable : ¬ Readable vnode name := fun h ↦ hlong h.1
        rw [if_neg hlong] at htoken
        simp [HasOutcome, prefixWalk, hunreadable, followPath, htoken]
      rw [if_pos hlong] at htoken
      by_cases htype : vnode.vnodeType = .directory
      swap
      · have hreadable : Readable vnode name := ⟨hlong, fun h ↦ absurd h htype⟩
        simp [HasOutcome, prefixWalk, hreadable, htype, followPath, htoken, findVnodeChild]
      have hchild := findVnodeChild_spec name hsound htype
      by_cases hbound : (entered vnode).numChildren ≤ VNODE_MAX_DIRECTORY_ENTRIES
      swap
      · have hunreadable : ¬ Readable vnode name := fun h ↦ hbound (h.2 htype)
        rw [if_neg hbound] at hchild
        simp [HasOutcome, prefixWalk, hunreadable, followPath, htoken, hchild]
      rw [if_pos hbound] at hchild
      obtain ⟨after, found, hfind, hsame, hfinds⟩ := hchild
      have hreadable : Readable vnode name := ⟨hlong, fun _ ↦ hbound⟩
      cases hfirst : firstComparable disk vnode name with
      | none =>
        rw [hfirst] at hfinds
        obtain rfl : found = none := hfinds
        simp [HasOutcome, prefixWalk, hreadable, htype, hfirst, followPath, htoken, hfind]
      | some child =>
        rw [hfirst] at hfinds
        obtain ⟨idx, rfl, hidx⟩ := hfinds
        have hchildSound := hvnodes.visible hvnode htype (mem_of_find?_eq_some hfirst)
        have hlt := (List.getElem?_eq_some_iff.mp hidx).1
        simp only [prefixWalk, if_pos hreadable, if_pos htype, hfirst]
        cases names with
        | nil =>
          refine ⟨after, ⟨[idx], child.mountedVnode.isSome⟩, ?_, hsame, ?_, rfl⟩
          · simp [followPath, htoken, hfind, hidx]
          · simp [follow, hidx]
        | cons next names =>
          have hdropNext : (first :: tokens).drop (num + 1) = next :: names := by
            rw [← tail_drop, hdrop]
            rfl
          have hrest := followPath_spec hvnodes htokens names (num + 1) fuel hdropNext
            (by simpa using hfuel) hchildSound
          have hround : followPath disk (first ++ delimited '/' tokens) (fuel + 1) (num + 1) vnode =
              (followPath disk (first ++ delimited '/' tokens) fuel (num + 1 + 1) child).bind
                fun result ↦ some (replaceChild after idx result.1, result.2.map fun ptr ↦
                  ⟨idx :: ptr.position, ptr.mounted⟩) := by
            simp [followPath, htoken, hfind, hidx]
          rw [hround]
          cases houtcome : prefixWalk disk child (next :: names) with
          | fault =>
            rw [houtcome] at hrest
            simp only [HasOutcome, Outcome.behind] at hrest ⊢
            rw [hrest, bind_none]
          | missing =>
            rw [houtcome] at hrest
            obtain ⟨child', hcall⟩ := hrest
            exact ⟨replaceChild after idx child', by rw [hcall]; rfl⟩
          | found reachedNames reached =>
            rw [houtcome] at hrest
            obtain ⟨child', ptr, hcall, hsameChild, hfollow, hmounted⟩ := hrest
            refine ⟨replaceChild after idx child', ⟨idx :: ptr.position, ptr.mounted⟩,
              by rw [hcall]; rfl, hsame.trans (sameVnode_replaceChild ..), ?_, hmounted⟩
            rw [follow_replaceChild hlt, hfollow, map_some, hsameChild.name]

theorem prefixWalk_entered (hsound : SoundTree disk vnode)
    (htype : vnode.vnodeType = .directory) (name : List Char) (names : List (List Char)) :
    prefixWalk disk (entered vnode) (name :: names) = prefixWalk disk vnode (name :: names) := by
  obtain ⟨-, hinnerType, hinnerMount, -⟩ := hsound.entered htype
  have hentered : entered (entered vnode) = entered vnode := by
    conv_lhs => rw [entered, hinnerMount]
    rfl
  simp only [prefixWalk, Readable, firstComparable, visible, hentered, htype, hinnerType, if_true]

theorem follow_congr {vnode' : Vnode} (hentered : entered vnode = entered vnode')
    (idx : ℕ) (pos : List ℕ) :
    follow vnode (idx :: pos) = follow vnode' (idx :: pos) := by
  simp only [follow, hentered]

theorem prefixWalk_ne_nil {reached : Vnode} {name : List Char} :
    prefixWalk disk vnode (name :: names) ≠ .found [] reached := by
  unfold prefixWalk
  split
  · split
    · split
      · simp
      · rename_i child _
        cases prefixWalk disk child names <;> simp [Outcome.behind]
    · simp
  · simp

theorem length_le_delimited (tokens : List (List Char)) :
    tokens.length ≤ (delimited '/' tokens).length := by
  induction tokens with
  | nil => simp
  | cons token tokens ih =>
    simp only [delimited, flatMap_cons, length_append, length_cons] at ih ⊢
    omega

theorem vnodeLookup_spec {Sound : Vnode → Prop} {root : Vnode} (hvnodes : SoundVnodes disk Sound)
    (hsound : SoundTree disk root) (hinner : Sound (entered root))
    (htype : root.vnodeType = .directory) (hnames : Components names) :
    HasOutcome (vnodeLookup disk root (absolutePath names)) root (prefixWalk disk root names) := by
  obtain ⟨hne, hcomponents⟩ := hnames
  obtain ⟨first, tokens, rfl⟩ := exists_cons_of_ne_nil hne
  obtain ⟨hfirst, hslash⟩ := hcomponents first mem_cons_self
  obtain ⟨letter, letters, rfl⟩ := exists_cons_of_ne_nil hfirst
  have hletter : letter ≠ '/' := fun h ↦ hslash (h ▸ mem_cons_self)
  let path := letter :: letters ++ delimited '/' tokens
  have hpath : (absolutePath ((letter :: letters) :: tokens)).dropWhile (· == '/') = path := by
    simp [absolutePath, delimited, path, hletter]
  have hfuel : tokens.length < path.length := by
    have hlen := length_le_delimited tokens
    simp only [path, length_append, length_cons]
    omega
  obtain ⟨-, -, hinnerMount, -⟩ := hsound.entered htype
  have hwalk := followPath_spec hvnodes hcomponents tokens 0 path.length rfl hfuel hinner
  rw [prefixWalk_entered hsound htype] at hwalk
  cases hmounted : root.mountedVnode with
  | none =>
    have hentered : entered root = root := by simp [entered, hmounted]
    have hcall : vnodeLookup disk root (absolutePath ((letter :: letters) :: tokens)) =
        followPath disk path path.length 1 root := by
      simp only [vnodeLookup, parsePath, hpath, hmounted]
      rfl
    rw [hcall]
    rwa [hentered] at hwalk
  | some mounted =>
    have hentered : entered root = mounted := by simp [entered, hmounted]
    have hcall : vnodeLookup disk root (absolutePath ((letter :: letters) :: tokens)) =
        (followPath disk path path.length 1 mounted).bind fun result ↦
          some (root.setMounted result.1, result.2) := by
      simp only [vnodeLookup, parsePath, hpath, hmounted]
      rfl
    rw [hentered] at hwalk hinnerMount
    rw [hcall]
    cases houtcome : prefixWalk disk root ((letter :: letters) :: tokens) with
    | fault =>
      rw [houtcome] at hwalk
      have hnone : followPath disk path path.length 1 mounted = none := hwalk
      simp only [HasOutcome, hnone, bind_none]
    | missing =>
      rw [houtcome] at hwalk
      obtain ⟨after, hres⟩ := hwalk
      exact ⟨root.setMounted after, by rw [hres]; rfl⟩
    | found reachedNames reached =>
      rw [houtcome] at hwalk
      obtain ⟨after, ptr, hres, hsame, hfollow, hpointer⟩ := hwalk
      refine ⟨root.setMounted after, ptr, by rw [hres]; rfl, ⟨rfl, by rw [hmounted]; rfl⟩,
        ?_, hpointer⟩
      cases hpos : ptr.position with
      | nil =>
        rw [hpos] at hfollow
        obtain ⟨rfl, -⟩ : [] = reachedNames ∧ after = reached := by simpa [follow] using hfollow
        exact absurd houtcome prefixWalk_ne_nil
      | cons idx pos =>
        have hafter : after.mountedVnode = none := by
          simpa [hinnerMount] using hsame.mounted
        have hsameEntered : entered (root.setMounted after) = entered after := by
          conv_rhs => rw [entered, hafter]
          rfl
        rw [follow_congr hsameEntered, ← hpos]
        exact hfollow

/-- **Path resolution is exact** if and only if the first comparable entry of each directory on the
way is the right one, or both walks fail. -/
theorem vnodeLookup_exact_iff {disk : Disk} {root : Vnode} {names : List (List Char)}
    (hdisk : SoundDisk disk) (hsound : SoundTree disk root)
    (htype : root.vnodeType = .directory) (hnames : Components names) :
    (∃ result, vnodeLookup disk root (absolutePath names) = some result ∧
      Exact disk root names result) ↔ Agrees disk root names := by
  have hspec := vnodeLookup_spec hdisk.soundVnodes hsound (hsound.entered htype).1 htype hnames
  rw [agrees_iff hdisk names hsound]
  cases houtcome : prefixWalk disk root names with
  | fault =>
    rw [houtcome] at hspec
    have hnone : vnodeLookup disk root (absolutePath names) = none := hspec
    simp [hnone]
  | missing =>
    rw [houtcome] at hspec
    obtain ⟨after, hres⟩ := hspec
    simp [hres, Exact]
  | found reachedNames reached =>
    rw [houtcome] at hspec
    obtain ⟨after, ptr, hres, -, hfollow, hpointer⟩ := hspec
    constructor
    · rintro ⟨result, hcall, hexact⟩
      obtain rfl : (after, some ptr) = result := by
        rw [hres] at hcall
        exact some.inj hcall
      obtain ⟨reached', hfollow', -, -⟩ := hexact
      rw [hfollow] at hfollow'
      obtain ⟨rfl, -⟩ := hfollow'
      exact .inl ⟨reached, rfl⟩
    · rintro (⟨reached', hfound⟩ | ⟨hmissing, -⟩)
      · simp only [Outcome.found.injEq] at hfound
        obtain ⟨rfl, -⟩ := hfound
        exact ⟨_, hres, reached, hfollow, resolve_of_prefixWalk hdisk _ hsound houtcome, hpointer⟩
      · cases hmissing

/-- A disk with the files `ab` and `a` in the directory with inode number 0. -/
def twoFileDisk : Disk := fun number ↦
  if number = 0 then
    { type := .directory, size := 2, blockCount := 1
      entries := [⟨['a', 'b'], 1, .file, 0⟩, ⟨['a'], 2, .file, 0⟩] }
  else { type := .file, size := 0, blockCount := 0, entries := [] }

/-- The root of that disk, mounted on the root of the virtual file system. -/
def twoFileRoot : Vnode :=
  .mk ⟨['/'], .directory, 0, .vnodeRoot, 0, true, true⟩
    (replicate VNODE_MAX_DIRECTORY_ENTRIES none)
    (some (.mk ⟨['r'], .directory, 0, .diosfs, 0, false, false⟩ [] none))

theorem soundDisk_twoFileDisk : SoundDisk twoFileDisk := by
  intro num entry hentry htype
  by_cases hnum : num = 0
  · have hmem : entry ∈ [⟨['a', 'b'], 1, .file, 0⟩, ⟨['a'], 2, VnodeType.file, 0⟩] := by
      simpa [diskEntries, twoFileDisk, hnum] using hentry
    rcases mem_cons.mp hmem with rfl | hmem
    · cases htype
    · rw [mem_singleton.mp hmem] at htype
      cases htype
  · simp [diskEntries, twoFileDisk, hnum] at hentry

theorem soundTree_twoFileRoot : SoundTree twoFileDisk twoFileRoot := by
  have hmounted : SoundTree twoFileDisk
      (.mk ⟨['r'], .directory, 0, .diosfs, 0, false, false⟩ [] none) := by
    refine .intro (fun _ _ ↦ ⟨rfl, ⟨rfl, by decide, by decide⟩, rfl⟩) (fun child hchild ↦ ?_)
      (fun _ h ↦ ?_) (fun _ h ↦ ?_)
    · cases hchild
    · cases h
    · cases h
  refine .intro (fun _ h ↦ ?_) (fun child hchild ↦ ?_) (fun mounted h ↦ ?_) (fun mounted h ↦ ?_)
  · cases h
  · simp [twoFileRoot, Vnode.vnodeChildren] at hchild
  · cases h
    exact ⟨rfl, rfl, rfl⟩
  · cases h
    exact hmounted

/-- The first file is found. -/
theorem vnodeLookup_exact_twoFile : ∃ result,
    vnodeLookup twoFileDisk twoFileRoot (absolutePath [['a', 'b']]) = some result ∧
      Exact twoFileDisk twoFileRoot [['a', 'b']] result := by
  have hagrees : Agrees twoFileDisk twoFileRoot [['a', 'b']] :=
    ⟨by decide, fun _ ↦ .inl ⟨by decide, trivial⟩⟩
  exact (vnodeLookup_exact_iff soundDisk_twoFileDisk soundTree_twoFileRoot rfl
    (by simp [Components])).mpr hagrees

/-- The second one is not: its name is a prefix of the first one. -/
theorem vnodeLookup_not_exact :
    SoundDisk twoFileDisk ∧ SoundTree twoFileDisk twoFileRoot ∧
      ((entriesOf twoFileDisk twoFileRoot).map Vnode.vnodeName).Nodup ∧ Components [['a']] ∧
      ¬ ∃ result, vnodeLookup twoFileDisk twoFileRoot (absolutePath [['a']]) = some result ∧
        Exact twoFileDisk twoFileRoot [['a']] result := by
  refine ⟨soundDisk_twoFileDisk, soundTree_twoFileRoot, by decide, by simp [Components], ?_⟩
  rintro ⟨⟨after, found⟩, hcall, hexact⟩
  have hpointer : (vnodeLookup twoFileDisk twoFileRoot (absolutePath [['a']])).map Prod.snd =
      some (some ⟨[0], false⟩) := by decide +kernel
  have hnames : (vnodeLookup twoFileDisk twoFileRoot (absolutePath [['a']])).map
      (fun result ↦ (follow result.1 [0]).map Prod.fst) = some (some [['a', 'b']]) := by
    decide +kernel
  rw [hcall, map_some, some.injEq] at hpointer hnames
  obtain rfl : found = some ⟨[0], false⟩ := hpointer
  obtain ⟨reached, hfollow, -, -⟩ := hexact
  rw [hfollow] at hnames
  simp at hnames

end DionysOS.Filesystem.Vfs
