import FileCourier.Proofs.Courier.Copying
import FileCourier.Proofs.LocalRoots.Serving
import FileCourier.Proofs.MasterFiles.Endings
import FileCourier.Proofs.MasterFiles.Filling

/-!
# Sources with a known stock

A source stocks files in an environment when it lists just these files and finds just these, whatever it
was asked before (`Source.Stocks`). Local roots that hold a tree stock the files of the tree
(`LocalRoots.Hosts.stocks`), and so does a master that offers the tree and says of other files that it has
none (`MasterFiles.Offers.stocks`).
-/

namespace FileCourier

open LocalRoots (listed)
open FileCourier.Path (Normalised)

variable {σ : Type} {env f : Bytes} {t : FileTree} {d d₁ : Disk} {P : Place}

/-- Whatever it was asked before, the source lists these files and no other, caches each of them, and
finds no other file under a normalised path that begins as a listed one does. The worlds in which it is
asked are those of `I`. -/
structure Source.Stocks (s : Source σ) (env : Bytes) (files : List Bytes) (I : World σ → Prop) :
    Prop where
  lists : ∀ {w}, I w → ∃ listing w', s.files env w = (.ok (some listing), w') ∧
    (∀ f, f ∈ listing ↔ f ∈ files) ∧ I w'
  serves : ∀ {w f}, I w → f ∈ files → ∃ place w',
    s.getFile (Courier.cacheRequest f env) w = (.ok (.stored place), w') ∧ place.text ≠ [] ∧ I w'
  lacks : ∀ {w f}, I w → f ∉ files → Normalised ⟨f⟩ → (∃ g ∈ files, g.head? = f.head?) → ∃ w',
    s.getFile (Courier.cacheRequest f env) w = (.ok .notFound, w') ∧ I w'

theorem Path.Normalised.text_eq (h : Normalised ⟨f⟩) : f = listed (Path.mk f).names := by
  rw [Path.listed_eq_spell h.proper, h.spell_names]

/-! ## Local roots -/

namespace LocalRoots

variable {s : Settings} {root : Path} {R : Place} {l : LocalRoots σ}

/-- A file that is not in the tree is not found. -/
theorem Hosts.find_eq_none (h : Hosts s env root R t d) (hf : Normalised ⟨f⟩)
    (hhead : f.head? ≠ some (Bytes.ascii '|')) (hmem : f ∉ t.listedFiles) :
    LocalRoots.find s f env d = none := by
  have hplace : d.isFile (root / Path.mk f) = false := by
    rw [Bool.eq_false_iff, Path.join_normalised root hf]
    intro hfile
    have hbehind := h.rooted.behind hf.proper hf.names_ne_nil
    obtain ⟨p, x, content, hfind⟩ := Disk.find_of_isFile hfile
    obtain rfl : p = R ++ (Path.mk f).names :=
      h.rooted.site.place_eq hf.proper hf.names_ne_nil (Disk.follow_of_find hbehind.reads hfind)
    refine hmem (List.mem_map.2 ⟨((Path.mk f).names, content), ?_, hf.text_eq.symm⟩)
    exact h.holding.file.1 ⟨x, Disk.get?_of_find hfind⟩
  rw [LocalRoots.find, relative?_eq_some hf.text_ne_nil hf.isAbsolute_eq hhead, Option.bind_some, h.only]
  change [root / Path.mk f].find? d.isFile = none
  rw [List.find?_singleton, hplace, if_neg Bool.false_ne_true]

/-- Local roots that hold a tree in which no name begins with the escape marker stock its files. -/
theorem Hosts.stocks (h : Hosts l.settings env root R t d)
    (hhead : ∀ f ∈ t.listedFiles, f.head? ≠ some (Bytes.ascii '|')) :
    l.source.Stocks env t.listedFiles fun w => w.disk = d where
  lists {w} hw := by
    obtain rfl := hw
    refine ⟨listing l.settings (·.files) env w.disk, w, rfl, fun f => ?_, rfl⟩
    rw [h.listing_eq]
    exact h.mem_files_iff
  serves {w f} hw hf := by
    obtain rfl := hw
    obtain ⟨⟨ns, content⟩, hmem, rfl⟩ := List.mem_map.1 hf
    have hget : l.source.getFile (Courier.cacheRequest (listed ns) env) w = _ :=
      LocalRoots.getFile_apply l.settings (listed ns) env [] true 0 w
    rw [h.find_eq hmem (hhead _ hf)] at hget
    refine ⟨_, w, hget, ?_, rfl⟩
    have hproper := fun n hn =>
      (h.ordinary_of_leaf (FileTree.mem_leaves_of_file hmem) n hn).proper
    have hne := h.consistent.ne_nil _ hmem
    rw [← Path.join_spell root hproper hne]
    exact Path.text_join_ne_nil root (Path.plain_spell hproper hne).text_ne_nil
  lacks {w f} hw hmem hf hlike := by
    obtain rfl := hw
    obtain ⟨g, hg, hgf⟩ := hlike
    have hget : l.source.getFile (Courier.cacheRequest f env) w = _ :=
      LocalRoots.getFile_apply l.settings f env [] true 0 w
    rw [h.find_eq_none hf (hgf ▸ hhead g hg) hmem] at hget
    exact ⟨w, hget, rfl⟩

end LocalRoots

/-! ## A master -/

namespace MasterFiles

variable {m : MasterFiles σ}

/-- A master that offers a tree, and says of every other file that it has none, stocks the files of the
tree while what is cached is kept where the cache is. -/
theorem Offers.stocks (h : m.Offers env t) (hopens : m.cache.Opens d d₁)
    (hsettled : m.cache.Settled P d₁) (hfits : ∀ f ∈ t.files, m.cache.Accepts env f.1)
    (hpatience : 0 < m.patience)
    (hlacks : ∀ f, f ∉ t.listedFiles → ∀ s, ∃ reply,
      (m.ask (pieceRequest (Courier.cacheRequest f env) f 0) s).1 = .ok reply ∧ Absent reply) :
    m.source.Stocks env t.listedFiles fun w => m.cache.Filled P d w.disk where
  lists {w} hw := by
    obtain ⟨beyond, hrun⟩ := h.files.listing_apply w
    exact ⟨t.listedFiles, _, hrun, fun _ => Iff.rfl, hw⟩
  serves {w f} hw hf := by
    obtain ⟨⟨ns, content⟩, hmem, rfl⟩ := List.mem_map.1 hf
    have hns := hfits _ hmem
    have hserves := h.serves _ hmem (Courier.cacheRequest (listed ns) env) rfl
    obtain ⟨hstored, -⟩ :=
      run_of_serves rfl hserves (h.patience _ hmem) (openable_filled hopens hsettled hw hns)
    obtain ⟨-, hfilled⟩ :=
      getFile_filled hopens hsettled hw hns hserves.whenReached (h.patience _ hmem)
    exact ⟨_, _, Prod.ext hstored rfl, hns.place_ne_nil, hfilled⟩
  lacks {w f} hw hmem hf _ := by
    obtain ⟨reply, hask, habsent⟩ := hlacks f hmem w.beyond
    obtain ⟨hnone, hdisk⟩ := (getFile_of_absent m (Courier.cacheRequest f env) w f reply rfl hpatience
      hask habsent).1 rfl
    exact ⟨_, Prod.ext hnone rfl, hdisk.symm ▸ hw⟩

end MasterFiles

end FileCourier
