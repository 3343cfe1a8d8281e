import Esdm.Posix
import Esdm.Proofs.Container
import Esdm.Proofs.Table

/-!
# Deleting the fragments of a dataset on the POSIX backend

`fragment_delete` removes a file and then its directory, and fails if the directory is not empty.
So all fragments can be deleted only if each of their files is alone in its directory
(`deleteAll_deletes_iff`).  If two ids begin with the same two characters, the fragment that is
visited first stays in the table without its file.
-/

namespace Esdm

open Posix

variable {V : Type}

section Simulation

variable {tgt : List String} {datasetId : String} {fs fs' : FileSystem String} {ds ds' : Dataset V}
  {status : Status} {env : Env V}

theorem Dataset.deleteFragments_congr {deleted deleted' : Hypercube → Status} :
    ∀ {entries : List (Hypercube × ℕ)} {ds : Dataset V},
    (∀ e ∈ entries, deleted e.1 = deleted' e.1) →
    ds.deleteFragments deleted entries = ds.deleteFragments deleted' entries
  | [], _, _ => rfl
  | (shape, r) :: entries, ds, h => by
    have hrest := fun e he => h e (List.mem_cons_of_mem _ he)
    have hshape : deleted shape = deleted' shape := h _ List.mem_cons_self
    unfold Dataset.deleteFragments
    simp only [hshape, deleteFragments_congr hrest]

/-- What the loop does to the dataset is what it does with a backend that returns the statuses that
were returned here. -/
theorem Posix.deleteFragments_simulates : ∀ {entries : List (Hypercube × ℕ)}
    {fs fs' : FileSystem String} {ds ds' : Dataset V} {status : Status},
    (entries.map Prod.fst).Nodup →
    deleteFragments tgt datasetId entries fs ds = .ok (status, fs', ds') →
    ∃ deleted, ds.deleteFragments deleted entries = .ok (status, ds')
  | [], _, _, _, _, _, _, h => by
    cases h
    exact ⟨fun _ => .success, rfl⟩
  | (shape, r) :: entries, fs, fs', ds, ds', status, hnodup, h => by
    obtain ⟨hnot, hnodup⟩ := List.nodup_cons.1 hnodup
    have hcongr : ∀ (deleted : Hypercube → Status) (s : Status), ∀ e ∈ entries,
        deleted e.1 = Function.update deleted shape s e.1 := by
      intro deleted s e he
      have hne : e.1 ≠ shape := fun h => hnot (List.mem_map.2 ⟨e, he, h⟩)
      rw [Function.update_of_ne hne]
    unfold Posix.deleteFragments at h
    obtain ⟨f, hf, h⟩ := Outcome.bind_eq_ok.1 h
    obtain ⟨b, hb, h⟩ := Outcome.bind_eq_ok.1 h
    obtain ⟨⟨s, fs₁⟩, -, h⟩ := Outcome.bind_eq_ok.1 h
    dsimp only at h
    split_ifs at h with hs
    · obtain ⟨ds₁, hd, h⟩ := Outcome.bind_eq_ok.1 h
      obtain ⟨deleted, hdeleted⟩ := deleteFragments_simulates hnodup h
      refine ⟨Function.update deleted shape s, ?_⟩
      rw [Dataset.deleteFragments, hf, Outcome.ok_bind, hb, Outcome.ok_bind,
        Function.update_self, if_pos hs, hd, Outcome.ok_bind,
        ← Dataset.deleteFragments_congr (hcongr deleted s), hdeleted]
    · obtain ⟨⟨s', fs₂, ds₂⟩, h₂, h⟩ := Outcome.bind_eq_ok.1 h
      obtain ⟨deleted, hdeleted⟩ := deleteFragments_simulates hnodup h₂
      cases h
      refine ⟨Function.update deleted shape status, ?_⟩
      rw [Dataset.deleteFragments, hf, Outcome.ok_bind, hb, Outcome.ok_bind,
        Function.update_self, if_neg hs, ← Dataset.deleteFragments_congr (hcongr deleted status),
        hdeleted]
      rfl

/-- So the calls that follow the deletion go on as they do with any backend. -/
theorem Posix.deleteAll_simulates (hw : ds.shapes.Nodup)
    (h : Posix.deleteAll env tgt datasetId fs ds = .ok (status, fs', ds')) :
    ∃ deleted, ds.deleteAll env deleted = .ok (status, ds') := by
  refine deleteFragments_simulates ?_ h
  exact ((env.order_perm ds.table).map Prod.fst).nodup_iff.2 hw

end Simulation

namespace Posix

variable {tgt : List String} {datasetId : String} {fs fs' : FileSystem String} {ds ds' : Dataset V}
  {env : Env V} {f : Fragment V} {id : String} {p : List String} {e : Hypercube × ℕ}

section Paths

theorem splitId_inj {id' : String} {r : Char × Char × String} (h : splitId id = some r)
    (h' : splitId id' = some r) : id = id' := by
  have hlist : ∀ {id : String}, splitId id = some r →
      id.toList = r.1 :: r.2.1 :: r.2.2.toList := by
    intro id h
    unfold splitId at h
    split at h
    · next c₀ c₁ cs hid =>
      obtain rfl := Option.some.inj h
      rw [hid, String.toList_ofList]
    · exact nomatch h
  exact String.toList_inj.1 ((hlist h).trans (hlist h').symm)

theorem fragmentPath_eq_some : fragmentPath tgt datasetId id = some p
    ↔ ∃ dir r, fragmentDir tgt datasetId id = some dir ∧ splitId id = some r
      ∧ p = dir ++ [r.2.2] := by
  simp only [fragmentPath, Option.bind_eq_bind, Option.bind_eq_some_iff, Option.pure_def,
    Option.some.injEq]
  grind

theorem fragmentDir_eq_some {dir : List String} : fragmentDir tgt datasetId id = some dir
    ↔ ∃ d r, splitId datasetId = some d ∧ splitId id = some r ∧ dir = tgt
      ++ [.singleton d.1, .singleton d.2.1, d.2.2, .singleton r.1, .singleton r.2.1] := by
  simp only [fragmentDir, Option.bind_eq_bind, Option.bind_eq_some_iff, Option.pure_def,
    Option.some.injEq]
  grind

theorem fragmentPath_length (h : fragmentPath tgt datasetId id = some p) :
    p.length = tgt.length + 5 + 1 := by
  obtain ⟨dir, r, hdir, -, rfl⟩ := fragmentPath_eq_some.1 h
  obtain ⟨d, r, -, -, rfl⟩ := fragmentDir_eq_some.1 hdir
  simp

theorem fragmentPath_dropLast (h : fragmentPath tgt datasetId id = some p) :
    fragmentDir tgt datasetId id = some p.dropLast := by
  obtain ⟨dir, r, hdir, -, rfl⟩ := fragmentPath_eq_some.1 h
  rw [hdir, List.dropLast_concat]

/-- Fragments with different ids have different files. -/
theorem fragmentPath_inj {id' : String} (h : fragmentPath tgt datasetId id = some p)
    (h' : fragmentPath tgt datasetId id' = some p) : id = id' := by
  obtain ⟨dir, r, hdir, hr, rfl⟩ := fragmentPath_eq_some.1 h
  obtain ⟨dir', r', hdir', hr', heq⟩ := fragmentPath_eq_some.1 h'
  obtain ⟨d, _, hd, hr₁, rfl⟩ := fragmentDir_eq_some.1 hdir
  obtain ⟨d', _, hd', hr₁', rfl⟩ := fragmentDir_eq_some.1 hdir'
  obtain rfl := Option.some.inj (hr.symm.trans hr₁)
  obtain rfl := Option.some.inj (hr'.symm.trans hr₁')
  simp only [List.append_assoc, List.append_cancel_left_eq, List.cons_append, List.nil_append,
    List.cons.injEq, String.singleton_inj, and_true] at heq
  have hrr : r = r' := Prod.ext heq.2.2.2.1 (Prod.ext heq.2.2.2.2.1 heq.2.2.2.2.2)
  exact splitId_inj hr (hrr ▸ hr')

end Paths

section Loop

theorem fragmentDelete_success_iff (hid : f.id = some id)
    (hp : fragmentPath tgt datasetId id = some p) :
    fragmentDelete tgt datasetId f fs = .ok (.success, fs') ↔ fs.removeWithDir p = some fs' := by
  unfold fragmentDelete FileSystem.removeWithDir
  rw [hid]
  dsimp only
  rw [hp]
  dsimp only [access_some, Outcome.ok_bind]
  rcases fs.unlink p with _ | fs₁
  · simp
  · rw [fragmentPath_dropLast hp]
    dsimp only [access_some, Outcome.ok_bind, Option.bind_eq_bind, Option.bind_some]
    rcases fs₁.rmdir p.dropLast with _ | fs₂
    · simp
    · simp

/-- The entry's fragment is stored in the file with the given path. -/
def StoredAt (tgt : List String) (datasetId : String) (ds : Dataset V) (e : Hypercube × ℕ)
    (p : List String) : Prop :=
  ∃ f id, ds.fragment e.2 = .ok f ∧ f.backend.isSome ∧ f.status ≠ .dirty ∧ f.id = some id
    ∧ fragmentPath tgt datasetId id = some p

theorem destroyFragments_singleton {shape : Hypercube} {r : ℕ} (hf : ds.fragment r = .ok f)
    (hclean : f.status ≠ .dirty) : ds.destroyFragments [(shape, r)]
      = .ok (ds.setFragment r { f with freed := true }) := by
  unfold Dataset.destroyFragments Dataset.fragmentDestroy
  rw [hf, Outcome.ok_bind, Outcome.ok_bind, Outcome.pure_eq, Outcome.ok_bind,
    eassert_of hclean, Outcome.ok_bind, Dataset.destroyFragments]

theorem StoredAt.destroyed {r : ℕ} {table : List (Hypercube × ℕ)} (hne : r ≠ e.2)
    (h : StoredAt tgt datasetId ds e p) :
    StoredAt tgt datasetId { ds.setFragment r f with table := table } e p := by
  obtain ⟨f', id, hf', hrest⟩ := h
  refine ⟨f', id, ?_, hrest⟩
  rw [Dataset.fragment_eq_ok] at hf' ⊢
  rw [Dataset.setFragment, List.getElem?_set_ne hne]
  exact hf'

/-- The loop returns a success exactly if all files go, each with its directory. -/
theorem deleteFragments_success_iff {path : Hypercube × ℕ → List String} :
    ∀ {entries : List (Hypercube × ℕ)} {fs : FileSystem String} {ds : Dataset V},
    (∀ e ∈ entries, StoredAt tgt datasetId ds e (path e)) → (entries.map Prod.snd).Nodup →
    ((∃ ds', deleteFragments tgt datasetId entries fs ds = .ok (.success, fs', ds'))
      ↔ fs.removeAll (entries.map path) = some fs')
  | [], fs, ds, _, _ => by simp [deleteFragments, FileSystem.removeAll]
  | e :: entries, fs, ds, hstored, hnodup => by
    obtain ⟨hnot, hnodup⟩ := List.nodup_cons.1 hnodup
    obtain ⟨⟨f, id, hf, hb, hclean, hid, hp⟩, hrest⟩ := List.forall_mem_cons.1 hstored
    obtain ⟨b, hb⟩ := Option.isSome_iff_exists.1 hb
    have hstored' : ∀ e' ∈ entries, StoredAt tgt datasetId
        { ds.setFragment e.2 { f with freed := true } with table := ds.table.erase e } e'
        (path e') := fun e' he' =>
      (hrest e' he').destroyed fun h => hnot (List.mem_map.2 ⟨e', he', h.symm⟩)
    have hstep := fun fs₁ => @fragmentDelete_success_iff V tgt datasetId fs fs₁ f id (path e) hid hp
    unfold deleteFragments
    rw [hf, Outcome.ok_bind, hb, access_some, Outcome.ok_bind, List.map_cons,
      FileSystem.removeAll, List.foldlM_cons]
    constructor
    · rintro ⟨ds', h⟩
      obtain ⟨⟨s, fs₁⟩, h₁, h⟩ := Outcome.bind_eq_ok.1 h
      dsimp only at h
      split_ifs at h with hs
      · subst hs
        rw [destroyFragments_singleton hf hclean, Outcome.ok_bind] at h
        have h₂ := (deleteFragments_success_iff hstored' hnodup).1 ⟨ds', h⟩
        exact Option.bind_eq_some_iff.2 ⟨fs₁, (hstep fs₁).1 h₁, h₂⟩
      · obtain ⟨⟨s', fs₂, ds₂⟩, -, h⟩ := Outcome.bind_eq_ok.1 h
        exact absurd (congrArg Prod.fst (Except.ok.inj h)) hs
    · intro h
      obtain ⟨fs₁, h₁, h₂⟩ := Option.bind_eq_some_iff.1 h
      obtain ⟨ds', h₂⟩ := (deleteFragments_success_iff hstored' hnodup).2 h₂
      refine ⟨ds', ?_⟩
      rw [(hstep fs₁).2 h₁, Outcome.ok_bind]
      dsimp only
      rw [if_pos rfl, destroyFragments_singleton hf hclean, Outcome.ok_bind]
      exact h₂

end Loop

section DeleteAll

variable {path : Hypercube × ℕ → List String}

/-- The fragments of the table are stored, each in a file of its own, and their ids are distinct. -/
structure Stored (tgt : List String) (datasetId : String) (fs : FileSystem String) (ds : Dataset V)
    (path : Hypercube × ℕ → List String) : Prop where
  table : ds.TableWf
  file : ∀ e ∈ ds.table, StoredAt tgt datasetId ds e (path e) ∧ path e ∈ fs.files
  ids : ∀ e ∈ ds.table, ∀ e' ∈ ds.table, ∀ f f', ds.fragment e.2 = .ok f →
    ds.fragment e'.2 = .ok f' → f.id = f'.id → e = e'

theorem Stored.path_inj (h : Stored tgt datasetId fs ds path) {e e' : Hypercube × ℕ}
    (he : e ∈ ds.table) (he' : e' ∈ ds.table) (hp : path e = path e') : e = e' := by
  obtain ⟨f, id, hf, -, -, hid, hpath⟩ := (h.file e he).1
  obtain ⟨f', id', hf', -, -, hid', hpath'⟩ := (h.file e' he').1
  have heq : id = id' := fragmentPath_inj hpath (hp ▸ hpath')
  exact h.ids e he e' he' f f' hf hf' (by rw [hid, hid', heq])

/-- All fragments are deleted: the call succeeds, no file is left and the table is empty. -/
def Deletes (env : Env V) (tgt : List String) (datasetId : String) (fs : FileSystem String)
    (ds : Dataset V) (path : Hypercube × ℕ → List String) : Prop :=
  ∃ fs' ds', deleteAll env tgt datasetId fs ds = .ok (.success, fs', ds')
    ∧ (∀ e ∈ ds.table, path e ∉ fs'.files) ∧ ds'.table = []

/-- For every set of stored fragments with distinct ids, every order in which they are visited and
every file system that holds their files: all fragments are deleted exactly if each file is alone in
its directory, which is named by the first two characters of the fragment's id. -/
theorem deleteAll_deletes_iff (h : Stored tgt datasetId fs ds path) :
    Deletes env tgt datasetId fs ds path ↔ ∀ e ∈ ds.table, fs.Alone (path e) := by
  have horder : ∀ e, e ∈ env.order ds.table ↔ e ∈ ds.table :=
    fun e => (env.order_perm ds.table).mem_iff
  have htable : (env.order ds.table).Nodup :=
    (env.order_perm ds.table).nodup_iff.2 (List.Nodup.of_map _ h.table.nodup)
  have hstored : ∀ e ∈ env.order ds.table, StoredAt tgt datasetId ds e (path e) :=
    fun e he => (h.file e ((horder e).1 he)).1
  have hrefs : ((env.order ds.table).map Prod.snd).Nodup :=
    htable.map_on fun e he e' he' => h.table.eq_of_ref_eq ((horder e).1 he) ((horder e').1 he')
  have hpaths : ((env.order ds.table).map path).Nodup :=
    htable.map_on fun e he e' he' => h.path_inj ((horder e).1 he) ((horder e').1 he')
  have hfiles : ∀ p ∈ (env.order ds.table).map path,
      p ∈ fs.files ∧ p.length = tgt.length + 5 + 1 := by
    intro p hp
    obtain ⟨e, he, rfl⟩ := List.mem_map.1 hp
    obtain ⟨⟨f, id, -, -, -, -, hpath⟩, hmem⟩ := h.file e ((horder e).1 he)
    exact ⟨hmem, fragmentPath_length hpath⟩
  have hremove := FileSystem.exists_removeAll_iff hpaths hfiles
  simp only [List.forall_mem_map, horder] at hremove
  rw [← hremove]
  constructor
  · rintro ⟨fs', ds', hd, -, -⟩
    exact ⟨fs', (deleteFragments_success_iff hstored hrefs).1 ⟨ds', hd⟩⟩
  · rintro ⟨fs', hfs'⟩
    obtain ⟨ds', hd⟩ := (deleteFragments_success_iff hstored hrefs).2 hfs'
    obtain ⟨deleted, hdeleted⟩ := deleteAll_simulates h.table.nodup hd
    refine ⟨fs', ds', hd, fun e he hmem => ?_, Dataset.deleteAll_table hdeleted⟩
    exact ((FileSystem.mem_files_removeAll hfs').1 hmem).2
      (List.mem_map_of_mem ((horder e).2 he))

/-- The fragment with the given id that covers one element of a line. -/
def sampleFragment (id : String) (offset : ℤ) : Fragment ℕ :=
  { Dataset.newFragment (.createFull [⟨offset, 1⟩] (.basic .int64)) none with
    id := some id, backend := some ⟨"p", 8, .equalized⟩, status := .persistent }

/-- A line of two fragments. -/
def sample (id id' : String) : Dataset ℕ :=
  { Dataset.init (.createFull [⟨0, 2⟩] (.basic .int64)) none with
    fragments := [sampleFragment id 0, sampleFragment id' 1]
    table := [([⟨0, 1⟩], 0), ([⟨1, 2⟩], 1)] }

/-- The files `abc` and `xyz` of the dataset `dset`. -/
def apart : FileSystem String where
  files := {["d", "s", "et", "a", "b", "c"], ["d", "s", "et", "x", "y", "z"]}
  dirs := {[], ["d"], ["d", "s"], ["d", "s", "et"], ["d", "s", "et", "a"],
    ["d", "s", "et", "a", "b"], ["d", "s", "et", "x"], ["d", "s", "et", "x", "y"]}
  disjoint := by decide +kernel
  parent_mem := by decide +kernel

/-- The files `abc` and `abz` of the dataset `dset`. -/
def together : FileSystem String where
  files := {["d", "s", "et", "a", "b", "c"], ["d", "s", "et", "a", "b", "z"]}
  dirs := {[], ["d"], ["d", "s"], ["d", "s", "et"], ["d", "s", "et", "a"],
    ["d", "s", "et", "a", "b"]}
  disjoint := by decide +kernel
  parent_mem := by decide +kernel

/-- The paths of the files. -/
def samplePath (id id' : String) (e : Hypercube × ℕ) : List String :=
  (fragmentPath [] "dset" (if e.2 = 0 then id else id')).getD []

theorem stored_apart : Stored [] "dset" apart (sample "abc" "xyz") (samplePath "abc" "xyz") where
  table := ⟨by decide, by decide⟩
  file := by
    refine List.forall_mem_cons.2 ⟨?_, List.forall_mem_singleton.2 ?_⟩
    · exact ⟨⟨sampleFragment "abc" 0, "abc", rfl, rfl, nofun, rfl, rfl⟩, by decide +kernel⟩
    · exact ⟨⟨sampleFragment "xyz" 1, "xyz", rfl, rfl, nofun, rfl, rfl⟩, by decide +kernel⟩
  ids := by
    have hids : ∀ e ∈ (sample "abc" "xyz").table, ∀ f, (sample "abc" "xyz").fragment e.2 = .ok f →
        e = (if f.id = some "abc" then ([⟨0, 1⟩], 0) else ([⟨1, 2⟩], 1)) := by
      refine List.forall_mem_cons.2 ⟨?_, List.forall_mem_singleton.2 ?_⟩
      · intro f hf
        obtain rfl : sampleFragment "abc" 0 = f := Except.ok.inj hf
        rfl
      · intro f hf
        obtain rfl : sampleFragment "xyz" 1 = f := Except.ok.inj hf
        rfl
    intro e he e' he' f f' hf hf' hid
    rw [hids e he f hf, hids e' he' f' hf', hid]

theorem deleteAll_deletes_iff_apart : Deletes (Env.calm 0) [] "dset" apart (sample "abc" "xyz")
    (samplePath "abc" "xyz") :=
  (deleteAll_deletes_iff stored_apart).2 (by decide +kernel)

/-- The first call removes both files, but it fails for the fragment that it visits first, which
stays in the table; another call finds no file for it and fails as well. -/
theorem deleteAll_not_deletes : ∃ fs' ds', deleteAll (Env.calm 0) [] "dset" together
      (sample "abc" "abz") = .ok (.error, fs', ds')
    ∧ fs'.files = ∅ ∧ ds'.table = [([⟨0, 1⟩], 0)]
    ∧ ∃ fs'' ds'', deleteAll (Env.calm 0) [] "dset" fs' ds' = .ok (.error, fs'', ds'')
      ∧ ds''.table = [([⟨0, 1⟩], 0)] := by
  exact ⟨_, _, rfl, by decide +kernel, rfl, _, _, rfl, rfl⟩

end DeleteAll

end Posix

end Esdm
