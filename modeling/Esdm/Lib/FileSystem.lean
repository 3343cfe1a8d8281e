import Mathlib.Data.Finset.Basic
import Mathlib.Data.Finset.Lattice.Basic
import Mathlib.Data.Finset.SDiff

/-!
# Files in directories

A path is the list of the names on the way from the root.  A directory can be removed when it is
empty, so a file can be removed together with its directory when it is alone there
(`exists_removeWithDir_iff`), and a list of files when each of them is (`exists_removeAll_iff`).
-/

@[ext] structure FileSystem (N : Type) [DecidableEq N] where
  files : Finset (List N)
  dirs : Finset (List N)
  disjoint : Disjoint files dirs
  parent_mem : ∀ p ∈ files ∪ dirs, p ≠ [] → p.dropLast ∈ dirs

namespace FileSystem

variable {N : Type} [DecidableEq N] (fs : FileSystem N) {fs' : FileSystem N} {p q : List N}

def entries : Finset (List N) := fs.files ∪ fs.dirs

/-- Remove a file, if there is one. -/
def unlink (p : List N) : Option (FileSystem N) :=
  if p ∈ fs.files then
    some {
      files := fs.files.erase p
      dirs := fs.dirs
      disjoint := fs.disjoint.mono_left (Finset.erase_subset ..)
      parent_mem := fun q hq =>
        fs.parent_mem q (Finset.union_subset_union_left (Finset.erase_subset ..) hq) }
  else none

/-- Nothing is in the directory. -/
def IsEmpty (p : List N) : Prop := ∀ q ∈ fs.entries, q ≠ [] → q.dropLast ≠ p

instance : Decidable (fs.IsEmpty p) := inferInstanceAs (Decidable (∀ q ∈ fs.entries, _))

/-- Remove a directory, if there is one and it is empty. -/
def rmdir (p : List N) : Option (FileSystem N) :=
  if h : p ∈ fs.dirs ∧ fs.IsEmpty p then
    some {
      files := fs.files
      dirs := fs.dirs.erase p
      disjoint := fs.disjoint.mono_right (Finset.erase_subset ..)
      parent_mem := fun q hq hne =>
        have hq := Finset.union_subset_union_right (Finset.erase_subset ..) hq
        Finset.mem_erase.2 ⟨h.2 q hq hne, fs.parent_mem q hq hne⟩ }
  else none

/-- Remove a file, and the directory in which it was. -/
def removeWithDir (p : List N) : Option (FileSystem N) :=
  fs.unlink p >>= fun fs => fs.rmdir p.dropLast

def removeAll (paths : List (List N)) : Option (FileSystem N) := paths.foldlM removeWithDir fs

/-- Nothing else is in the directory of a file. -/
def Alone (p : List N) : Prop := ∀ q ∈ fs.entries, q ≠ [] → q.dropLast = p.dropLast → q = p

instance : Decidable (fs.Alone p) := inferInstanceAs (Decidable (∀ q ∈ fs.entries, _))

variable {fs}

theorem mem_entries : p ∈ fs.entries ↔ p ∈ fs.files ∨ p ∈ fs.dirs := Finset.mem_union

theorem unlink_eq_some : fs.unlink p = some fs'
    ↔ p ∈ fs.files ∧ fs'.files = fs.files.erase p ∧ fs'.dirs = fs.dirs := by
  unfold unlink
  split_ifs with hp
  · rw [Option.some.injEq, eq_comm, FileSystem.ext_iff]
    exact (and_iff_right hp).symm
  · simp [hp]

theorem rmdir_eq_some : fs.rmdir p = some fs'
    ↔ (p ∈ fs.dirs ∧ fs.IsEmpty p) ∧ fs'.files = fs.files ∧ fs'.dirs = fs.dirs.erase p := by
  unfold rmdir
  split_ifs with hp
  · rw [Option.some.injEq, eq_comm, FileSystem.ext_iff]
    exact (and_iff_right hp).symm
  · simp [hp]

theorem isEmpty_unlink_iff (h : fs.unlink p = some fs') :
    fs'.IsEmpty p.dropLast ↔ fs.Alone p := by
  obtain ⟨hp, hfiles, hdirs⟩ := unlink_eq_some.1 h
  have hnot : p ∉ fs.dirs := Finset.disjoint_left.1 fs.disjoint hp
  have hentries : ∀ q, q ∈ fs'.entries ↔ q ≠ p ∧ q ∈ fs.entries := by
    intro q
    rw [mem_entries, mem_entries, hfiles, hdirs, Finset.mem_erase]
    by_cases hq : q = p
    · simp [hq, hnot]
    · simp [hq]
  constructor
  · intro h q hq hq' hdrop
    by_contra hqp
    exact h q ((hentries q).2 ⟨hqp, hq⟩) hq' hdrop
  · intro h q hq hq' hdrop
    obtain ⟨hqp, hq⟩ := (hentries q).1 hq
    exact hqp (h q hq hq' hdrop)

theorem removeWithDir_eq_some : fs.removeWithDir p = some fs'
    ↔ ∃ fs₁, fs.unlink p = some fs₁ ∧ fs₁.rmdir p.dropLast = some fs' :=
  Option.bind_eq_some_iff

theorem removeWithDir_entries (h : fs.removeWithDir p = some fs') :
    fs'.files = fs.files.erase p ∧ fs'.dirs = fs.dirs.erase p.dropLast := by
  obtain ⟨fs₁, h₁, h₂⟩ := removeWithDir_eq_some.1 h
  obtain ⟨-, hfiles, hdirs⟩ := unlink_eq_some.1 h₁
  obtain ⟨-, hfiles', hdirs'⟩ := rmdir_eq_some.1 h₂
  exact ⟨hfiles'.trans hfiles, by rw [hdirs', hdirs]⟩

/-- A file goes with its directory if it is alone there. -/
theorem exists_removeWithDir_iff (hp : p ∈ fs.files) (hne : p ≠ []) :
    (∃ fs', fs.removeWithDir p = some fs') ↔ fs.Alone p := by
  constructor
  · rintro ⟨fs', h⟩
    obtain ⟨fs₁, h₁, h₂⟩ := removeWithDir_eq_some.1 h
    exact (isEmpty_unlink_iff h₁).1 (rmdir_eq_some.1 h₂).1.2
  · intro halone
    obtain ⟨fs₁, h₁⟩ : ∃ fs₁, fs.unlink p = some fs₁ := ⟨_, if_pos hp⟩
    have hdir : p.dropLast ∈ fs₁.dirs := by
      rw [(unlink_eq_some.1 h₁).2.2]
      exact fs.parent_mem p (Finset.mem_union_left _ hp) hne
    have h₂ : fs₁.rmdir p.dropLast = some _ := dif_pos ⟨hdir, (isEmpty_unlink_iff h₁).2 halone⟩
    exact ⟨_, removeWithDir_eq_some.2 ⟨fs₁, h₁, h₂⟩⟩

/-- Removing a file with its directory leaves it as it is whether another one of that depth is alone
in its directory. -/
theorem alone_removeWithDir_iff (hp : p ∈ fs.files) (hq : q ∈ fs.files) (hne : p ≠ [])
    (hqp : q ≠ p) (hlen : q.length = p.length) (h : fs.removeWithDir p = some fs') :
    fs'.Alone q ↔ fs.Alone q := by
  obtain ⟨hfiles, hdirs⟩ := removeWithDir_entries h
  have halone := (exists_removeWithDir_iff hp hne).1 ⟨fs', h⟩
  constructor
  · intro hq' x hx hx' hdrop
    by_cases hmem : x ∈ fs'.entries
    · exact hq' x hmem hx' hdrop
    -- it was removed, so it is the file or its directory
    rw [mem_entries, hfiles, hdirs, Finset.mem_erase, Finset.mem_erase] at hmem
    have hgone : x = p ∨ x = p.dropLast := by
      rcases mem_entries.1 hx with hx | hx
      · exact .inl (by tauto)
      · exact .inr (by tauto)
    rcases hgone with rfl | rfl
    · have hqne : q ≠ [] := fun h => hne (List.length_eq_zero_iff.1 (by rw [← hlen, h]; rfl))
      exact absurd (halone q (mem_entries.2 (.inl hq)) hqne hdrop.symm) hqp
    · have hlen' := congrArg List.length hdrop
      have hpos := List.length_pos_iff.2 hx'
      simp only [List.length_dropLast] at hlen' hpos
      omega
  · intro hq' x hx hx' hdrop
    refine hq' x (mem_entries.2 ?_) hx' hdrop
    rw [mem_entries, hfiles, hdirs] at hx
    exact hx.imp Finset.mem_of_mem_erase Finset.mem_of_mem_erase

/-- Files of the same depth can be removed one after the other, each with its directory, exactly if
each is alone in its directory. -/
theorem exists_removeAll_iff {n : ℕ} : ∀ {paths : List (List N)} {fs : FileSystem N},
    paths.Nodup → (∀ p ∈ paths, p ∈ fs.files ∧ p.length = n + 1) →
    ((∃ fs', fs.removeAll paths = some fs') ↔ ∀ p ∈ paths, fs.Alone p)
  | [], fs, _, _ => by simp [removeAll]
  | p :: paths, fs, hnodup, hpaths => by
    obtain ⟨hnot, hnodup⟩ := List.nodup_cons.1 hnodup
    obtain ⟨⟨hp, hlen⟩, hrest⟩ := List.forall_mem_cons.1 hpaths
    have hne : p ≠ [] := List.ne_nil_of_length_eq_add_one hlen
    have hstep : ∀ fs₁, fs.removeWithDir p = some fs₁ →
        ((∃ fs', fs₁.removeAll paths = some fs') ↔ ∀ q ∈ paths, fs.Alone q) := by
      intro fs₁ h₁
      obtain ⟨hfiles, -⟩ := removeWithDir_entries h₁
      have hqp : ∀ q ∈ paths, q ≠ p := fun q hq h => hnot (h ▸ hq)
      have hrest' : ∀ q ∈ paths, q ∈ fs₁.files ∧ q.length = n + 1 := fun q hq =>
        ⟨hfiles ▸ Finset.mem_erase.2 ⟨hqp q hq, (hrest q hq).1⟩, (hrest q hq).2⟩
      rw [exists_removeAll_iff hnodup hrest']
      refine forall₂_congr fun q hq => ?_
      exact alone_removeWithDir_iff hp (hrest q hq).1 hne (hqp q hq)
        ((hrest q hq).2.trans hlen.symm) h₁
    rw [List.forall_mem_cons, removeAll, List.foldlM_cons]
    constructor
    · rintro ⟨fs', h⟩
      obtain ⟨fs₁, h₁, h₂⟩ := Option.bind_eq_some_iff.1 h
      exact ⟨(exists_removeWithDir_iff hp hne).1 ⟨fs₁, h₁⟩, (hstep fs₁ h₁).1 ⟨fs', h₂⟩⟩
    · rintro ⟨halone, hall⟩
      obtain ⟨fs₁, h₁⟩ := (exists_removeWithDir_iff hp hne).2 halone
      obtain ⟨fs', h₂⟩ := (hstep fs₁ h₁).2 hall
      exact ⟨fs', Option.bind_eq_some_iff.2 ⟨fs₁, h₁, h₂⟩⟩

theorem mem_files_removeAll : ∀ {paths : List (List N)} {fs : FileSystem N},
    fs.removeAll paths = some fs' → (q ∈ fs'.files ↔ q ∈ fs.files ∧ q ∉ paths)
  | [], fs, h => by
    obtain rfl := Option.some.inj h
    simp
  | p :: paths, fs, h => by
    obtain ⟨fs₁, h₁, h₂⟩ := Option.bind_eq_some_iff.1 h
    rw [mem_files_removeAll h₂, (removeWithDir_entries h₁).1, Finset.mem_erase, List.mem_cons]
    tauto

end FileSystem
