import Spotlight.Dcache
import Spotlight.Directory

/-! Paths to inodes through the directory cache (`inode_get_idx_by_path`). A path is its
characters in front of the terminating NUL. -/
namespace Spotlight.Ext4

def slash : UInt8 := 47

def rootInodeN : ℕ := 2

/-- The loop of `get_path_token_len`. The counter has eight bits, so that after 256 turns it is
where it began and never ends. -/
def getPathTokenLenLoop (path : List UInt8) : ℕ → ℕ → Outcome ℕ
  | 0, _ => .error .fuel
  | n + 1, len =>
    if path.getD len 0 ≠ slash ∧ path.getD len 0 ≠ 0 then
      getPathTokenLenLoop path n ((len + 1) % 2 ^ 8)
    else .ok len

def getPathTokenLen (path : List UInt8) : Outcome ℕ := getPathTokenLenLoop path 256 0

/-- The loop of `get_cached_inode_num`, with the pointer into the path. -/
def getCachedInodeNumLoop :
    ℕ → Dcache → List UInt8 → Option ℕ → Outcome (Dcache × List UInt8 × Option ℕ)
  | 0, _, _, _ => .error .fuel
  | n + 1, d, path, next => do
    let path := if path.head? = some slash then path.tail else path
    let pathLen ← getPathTokenLen path
    let ret := next
    if pathLen = 0 then return (d, path, ret)
    else do
      match ← dcacheLookup d ret (path.take pathLen) with
      | (d, some next) => getCachedInodeNumLoop n d (path.drop pathLen) (some next)
      | (d, none) => return (d, path, ret)

/-- Every turn but the last one goes on in the path. -/
def getCachedInodeNum (d : Dcache) (path : List UInt8) :
    Outcome (Dcache × List UInt8 × Option ℕ) :=
  getCachedInodeNumLoop (path.length + 1) d path none

def inodeGetIdxByPathLoop (fs : Mount) (fuel : ℕ) :
    ℕ → Dcache → List UInt8 → Option ℕ → ℕ → Outcome (Dcache × ℕ)
  | 0, _, _, _, _ => .error .fuel
  | n + 1, d, path, dcEntry, inodeIdx => do
    let path := path.dropWhile (· = slash)
    let pathLen ← getPathTokenLen path
    if pathLen = 0 then return (d, inodeIdx)
    else do
      let (inode, found) ← lookupName fs fuel inodeIdx (path.take pathLen)
      match found with
      | none => return (d, 0)
      | some inodeIdx => do
        let (d, dcEntry) ←
          if sIsDir inode.iMode then dcacheInsert d dcEntry (path.take pathLen) inodeIdx
          else pure (d, dcEntry)
        -- `strchr` finds the next separator, or none
        match path.dropWhile (· ≠ slash) with
        | [] => return (d, inodeIdx)
        | c :: path => inodeGetIdxByPathLoop fs fuel n d (c :: path) dcEntry inodeIdx

def inodeGetIdxByPath (fs : Mount) (fuel : ℕ) (d : Dcache) (path : List UInt8) :
    Outcome (Dcache × ℕ) := do
  assertThat (path.head? = some slash)
  let (d, path, dcEntry) ← getCachedInodeNum d path
  let inodeIdx ← dcacheGetInode d dcEntry
  inodeGetIdxByPathLoop fs fuel (path.length + 1) d path dcEntry inodeIdx

def freshDcache : Dcache := (dcacheInitRoot ⟨0, none, Heap.empty⟩ rootInodeN).1

def components (path : List UInt8) : List (List UInt8) :=
  (path.splitOn slash).filter (· ≠ [])

/-- The name that a path begins with, and what is behind it. -/
def token (path : List UInt8) : List UInt8 := path.takeWhile (· ≠ slash)

def afterToken (path : List UInt8) : List UInt8 := path.dropWhile (· ≠ slash)

variable {path : List UInt8}

lemma token_append (path : List UInt8) : token path ++ afterToken path = path :=
  List.takeWhile_append_dropWhile

lemma take_token (path : List UInt8) : path.take (token path).length = token path := by
  have h := @List.take_left _ (token path) (afterToken path)
  rwa [token_append] at h

lemma drop_token (path : List UInt8) : path.drop (token path).length = afterToken path := by
  have h := @List.drop_left _ (token path) (afterToken path)
  rwa [token_append] at h

lemma slash_notMem_token (path : List UInt8) : slash ∉ token path := by
  intro h
  have hne := List.mem_takeWhile_imp h
  rw [decide_eq_true_eq] at hne
  exact hne rfl

lemma afterToken_eq (path : List UInt8) :
    afterToken path = [] ∨ ∃ rest, afterToken path = slash :: rest := by
  cases h : afterToken path with
  | nil => exact .inl rfl
  | cons c rest =>
    right
    have hc := List.head?_dropWhile_not (fun c : UInt8 => decide (c ≠ slash)) path
    rw [show path.dropWhile (fun c => decide (c ≠ slash)) = c :: rest from h] at hc
    have hc : c = slash := by simpa using hc
    exact ⟨rest, by rw [hc]⟩

@[simp] lemma components_nil : components [] = [] := rfl

@[simp] lemma components_slash (path : List UInt8) :
    components (slash :: path) = components path := by
  simp [components, List.splitOn_cons_eq_if_modifyHead]

lemma components_dropWhile_slash (path : List UInt8) :
    components (path.dropWhile (· = slash)) = components path := by
  induction path with
  | nil => rfl
  | cons c path ih =>
    by_cases hc : c = slash
    · rw [List.dropWhile_cons_of_pos (by simpa using hc), ih, hc, components_slash]
    · rw [List.dropWhile_cons_of_neg (by simpa using hc)]

lemma components_token (h : token path ≠ []) :
    components path = token path :: components (afterToken path) := by
  have hsplit := token_append path
  rcases afterToken_eq path with hafter | ⟨rest, hafter⟩
  · rw [hafter, List.append_nil] at hsplit
    rw [hafter, components, ← hsplit, List.splitOn_eq_singleton (hsplit ▸ slash_notMem_token path)]
    rw [hsplit] at h
    simpa [hsplit] using h
  · rw [hafter, components_slash]
    conv_lhs => rw [components, ← hsplit, hafter,
      List.splitOn_append_cons_self_of_not_mem (slash_notMem_token path)]
    rw [List.filter_cons_of_pos (by simpa using h), components]

lemma eq_nil_of_token_nil (h : token path = []) (hslash : path.head? ≠ some slash) :
    path = [] := by
  have hsplit := token_append path
  rw [h, List.nil_append] at hsplit
  rcases afterToken_eq path with hafter | ⟨rest, hafter⟩
  · rw [← hsplit, hafter]
  · rw [← hsplit, hafter] at hslash
    exact absurd rfl hslash

lemma head?_dropWhile_slash (path : List UInt8) :
    (path.dropWhile (· = slash)).head? ≠ some slash := by
  intro h
  have hc := List.head?_dropWhile_not (fun c : UInt8 => decide (c = slash)) path
  rw [h] at hc
  simp at hc

lemma getD_token (hnul : 0 ∉ path) {len : ℕ} (hlt : len < (token path).length) :
    path.getD len 0 ≠ slash ∧ path.getD len 0 ≠ 0 := by
  have hin : path.getD len 0 ∈ token path := by
    rw [← token_append path, List.getD_append _ _ _ _ hlt, token_append,
      List.getD_eq_getElem _ _ hlt]
    exact List.getElem_mem hlt
  exact ⟨fun h => slash_notMem_token path (h ▸ hin),
    fun h => hnul (h ▸ (List.takeWhile_prefix _).subset hin)⟩

lemma getD_afterToken (path : List UInt8) :
    ¬(path.getD (token path).length 0 ≠ slash ∧ path.getD (token path).length 0 ≠ 0) := by
  intro hgo
  rw [← token_append path, List.getD_append_right _ _ _ _ (by rw [token_append]),
    token_append, Nat.sub_self] at hgo
  rcases afterToken_eq path with hafter | ⟨rest, hafter⟩
  · rw [hafter] at hgo
    exact hgo.2 rfl
  · rw [hafter] at hgo
    exact hgo.1 rfl

lemma getPathTokenLenLoop_eq (hnul : 0 ∉ path) (hlen : (token path).length ≤ 255) {n len : ℕ}
    (hle : len ≤ (token path).length) (hn : (token path).length < len + n) :
    getPathTokenLenLoop path n len = .ok (token path).length := by
  induction n generalizing len with
  | zero => omega
  | succ n ih =>
    rw [getPathTokenLenLoop]
    rcases hle.lt_or_eq with hlt | rfl
    · rw [if_pos (getD_token hnul hlt), Nat.mod_eq_of_lt (by omega)]
      exact ih hlt (by omega)
    · exact if_neg (getD_afterToken path)

/-- It goes round for ever in a longer one. -/
lemma getPathTokenLenLoop_long (hnul : 0 ∉ path) (hlen : 255 < (token path).length) (n : ℕ)
    {len : ℕ} (hle : len ≤ 255) : getPathTokenLenLoop path n len = .error .fuel := by
  induction n generalizing len with
  | zero => rfl
  | succ n ih =>
    rw [getPathTokenLenLoop, if_pos (getD_token hnul (by omega))]
    exact ih (by omega)

lemma getPathTokenLen_eq (hnul : 0 ∉ path) : getPathTokenLen path =
    if 255 < (token path).length then .error .fuel else .ok (token path).length := by
  rw [getPathTokenLen]
  split_ifs with hlong
  · exact getPathTokenLenLoop_long hnul hlong 256 (by decide)
  · exact getPathTokenLenLoop_eq hnul (by omega) (Nat.zero_le _) (by omega)

lemma noNul_dropWhile (hnul : 0 ∉ path) (p : UInt8 → Bool) : 0 ∉ path.dropWhile p :=
  fun hin => hnul ((List.dropWhile_suffix p).subset hin)

lemma noNul_afterToken (hnul : 0 ∉ path) : 0 ∉ afterToken path := noNul_dropWhile hnul _

/-- Paths whose characters and names fit the counter. -/
structure Fits (path : List UInt8) : Prop where
  noNul : 0 ∉ path
  length : ∀ name ∈ components path, name.length ≤ 255

lemma length_afterToken (htoken : token path ≠ []) : (afterToken path).length < path.length := by
  have h := congrArg List.length (token_append path)
  rw [List.length_append] at h
  have := List.length_pos_iff.mpr htoken
  omega

/-- The outer loop of `inode_get_idx_by_path` as a recursion over the names that are left. -/
def walkNames (fs : Mount) (fuel : ℕ) :
    Dcache → List (List UInt8) → Option ℕ → ℕ → Outcome (Dcache × ℕ)
  | d, [], _, inodeIdx => .ok (d, inodeIdx)
  | d, name :: names, dcEntry, inodeIdx =>
    -- the name is measured before anything is read
    if 255 < name.length then .error .fuel
    else do
      let (inode, found) ← lookupName fs fuel inodeIdx name
      match found with
      | none => return (d, 0)
      | some inodeIdx => do
        let (d, dcEntry) ←
          if sIsDir inode.iMode then dcacheInsert d dcEntry name inodeIdx else pure (d, dcEntry)
        walkNames fs fuel d names dcEntry inodeIdx

lemma inodeGetIdxByPathLoop_eq (fs : Mount) (fuel : ℕ) (hnul : 0 ∉ path) {n : ℕ}
    (hn : path.length < n) (d : Dcache) (dcEntry : Option ℕ) (inodeIdx : ℕ) :
    inodeGetIdxByPathLoop fs fuel n d path dcEntry inodeIdx =
      walkNames fs fuel d (components path) dcEntry inodeIdx := by
  induction n generalizing path d dcEntry inodeIdx with
  | zero => omega
  | succ n ih =>
    have hskip := (List.dropWhile_suffix (fun c : UInt8 => decide (c = slash)) (l := path)).length_le
    have hslash := head?_dropWhile_slash path
    rw [inodeGetIdxByPathLoop, ← components_dropWhile_slash path]
    replace hnul := noNul_dropWhile hnul fun c => decide (c = slash)
    generalize path.dropWhile (· = slash) = path at hnul hskip hslash ⊢
    rw [getPathTokenLen_eq hnul]
    by_cases htoken : token path = []
    · rw [eq_nil_of_token_nil htoken hslash]
      rfl
    · have hlen := length_afterToken htoken
      have hnext : ∀ d dcEntry inodeIdx, (match path.dropWhile (· ≠ slash) with
          | [] => pure (d, inodeIdx)
          | c :: path => inodeGetIdxByPathLoop fs fuel n d (c :: path) dcEntry inodeIdx) =
          walkNames fs fuel d (components (afterToken path)) dcEntry inodeIdx := by
        intro d dcEntry inodeIdx
        rw [← ih (noNul_afterToken hnul) (by omega), ← afterToken]
        cases hafter : afterToken path with
        | nil =>
          rw [hafter] at hlen
          obtain ⟨n, rfl⟩ : ∃ m, n = m + 1 := Nat.exists_eq_add_one.mpr (by omega)
          rfl
        | cons c path => rfl
      rw [components_token htoken, walkNames]
      by_cases hlong : 255 < (token path).length
      · rw [if_pos hlong, if_pos hlong]
        rfl
      · rw [if_neg hlong, if_neg hlong, Outcome.ok_bind, take_token, if_neg (by simpa using htoken)]
        simp only [hnext]

end Spotlight.Ext4
