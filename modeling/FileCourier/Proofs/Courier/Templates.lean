import FileCourier.Proofs.Courier.Permissions
import FileCourier.Proofs.Disk.Copying

/-!
# Rendered templates

However the rendering of a template ends without a fault, the disk is the one on which its source was
cached, but for the rendering at the place that the target names and the directories that were made
above it (`getTemplate_delivers`). An engine that writes one fresh file leaves nothing of it elsewhere:
it is moved from there, or discarded. Only when the target names a link, and is on another device than
the fresh file, does the rendering overwrite the file to which the link leads
(`rendering_overwrites_elsewhere`).
-/

namespace FileCourier

open Disk (Delivered Diverted Raised systemText)

variable {σ : Type} {c : Courier σ} {w w' w₁ S : World σ} {d d₁ d' : Disk} {dir path : Path} {url : Url}
  {text dest engine env content answer : Bytes} {path? : Option Bytes} {makeParents ready : Bool}
  {parameters : Parameters} {cached : Except Fault Bytes}
  {rendering : Path → Parameters → Disk → Bytes}

namespace Engine

/-- What an engine leaves that renders to a content: nothing when it fails, and otherwise one file with
the content, under the path of its answer, which was free. -/
inductive Writes (content : Bytes) (d : Disk) : Rendering → Disk → Prop
  | failed (reason : Bytes) : Writes content d (.failed reason) d
  | rendered {path : Bytes} {parent : Place} {name : Bytes} (x : Bool) :
      d.locate false (systemText path) = .ok (.free parent name) →
      Writes content d (.rendered path) (d.put (parent ++ [name]) (.file x content))

/-- Whatever answer the engine gives about a source on the disk, it has written the rendering. -/
def RendersAt (engine : Engine) (rendering : Path → Parameters → Disk → Bytes) (d : Disk)
    (source : Path) : Prop :=
  ∀ parameters result d', engine source parameters d = (.ok result, d') →
    Writes (rendering source parameters d) d result d'

/-- Where there is no engine, rendering fails and nothing is written. -/
theorem writes_render {engines : Engines} {name : Bytes} {source : Path} {result : Rendering}
    (hrenders : ∀ e, engines.get? name = some (some e) → e.RendersAt rendering d source)
    (h : engines.render name source parameters d = (.ok result, d')) :
    Writes (rendering source parameters d) d result d' := by
  rw [Engines.render] at h
  cases hengine : engines.get? name with
  | none =>
    rw [hengine] at h
    cases h
    exact .failed _
  | some engine? =>
    rw [hengine] at h
    cases engine? with
    | none =>
      cases h
      exact .failed _
    | some e => exact hrenders e hengine parameters result d' h

end Engine

namespace Chores

theorem snd_makeDirectories (dir : Path) (d : Disk) :
    (makeDirectories dir d).2 = (d.makeDirectories dir).2 := by
  rw [makeDirectories]
  split
  · rename_i hmade
    rw [hmade]
  · rename_i hmade
    rw [hmade]
    rfl

theorem raised_prepareParent (hd : d.Grounded)
    (h : prepareParent dir makeParents d = (.ok ready, d')) :
    Raised dir d d' ∧ d'.Grounded ∧ (ready = false ∨ makeParents = false → d' = d) := by
  have same : Raised dir d d ∧ d.Grounded ∧ (ready = false ∨ makeParents = false → d = d) :=
    ⟨.refl dir d, hd, fun _ => rfl⟩
  rw [prepareParent, Action.get_bind] at h
  split at h
  · cases h
    exact same
  split at h
  · cases h
    exact same
  · rename_i hmake
    obtain ⟨u, t, hmade, h⟩ := Action.exists_of_bind_ok h
    cases h
    have hdisk : d' = (d.makeDirectories dir).2 := by
      rw [← snd_makeDirectories, hmade]
    rw [hdisk]
    refine ⟨Disk.raised_makeDirectories hd dir, (hd.makeDirectories dir).2, ?_⟩
    rintro (hready | hspared)
    · cases hready
    · rw [hspared] at hmake
      exact absurd rfl hmake

end Chores

namespace Courier

/-- Where the rendering of a template goes. -/
def templateTarget (c : Courier σ) (url : Url) (dest env : Bytes) : Path :=
  if dest.isEmpty then c.cache.foreignPath env url.host url.path else dest

theorem text_templateTarget_ne_nil : (c.templateTarget url dest env).text ≠ [] := by
  rw [templateTarget]
  split
  · have hroot : (c.cache.root / Path.mk "extrn_files").text ≠ [] :=
      Path.text_join_ne_nil c.cache.root (List.cons_ne_nil _ _)
    exact Path.text_join_ne_nil_left
      (Path.text_join_ne_nil_left (Path.text_join_ne_nil_left hroot _) _) _
  · rename_i hdest
    exact fun hnil => hdest (List.isEmpty_iff.2 hnil)

/-- A path names nothing, in a directory that is there. -/
def FreshIn (near : Place) (path : Bytes) (d : Disk) : Prop :=
  ∃ name, d.locate false (systemText path) = .ok (.free near name)

/-- The disk after a file was moved from a directory to where a path leads: to the place that the path
names, unless that is a link on another device than the directory. -/
def Settled (c : Courier σ) (near : Place) (path : Path) (content : Bytes) (d d' : Disk)
    (spot : Disk.Spot) : Prop :=
  Delivered path content d d' spot ∨
    ∃ link, c.apart near link.dropLast = true ∧ Diverted path content d d' link spot

/-- Where the content was put, nothing else differs. -/
theorem Settled.file {near : Place} {spot : Disk.Spot} (h : c.Settled near path content d d' spot) :
    ∃ x, Disk.Alike (d.put spot.place (.file x content)) d' := by
  rcases h with h | ⟨_, -, h⟩
  · exact h.file
  · exact h.file

/-- A rendered file is put in its place or discarded, and nothing else is left of it. -/
theorem placeRendered_cases {path : Bytes} (hd : d.Grounded)
    (hwrites : Engine.Writes content d (.rendered path) d₁)
    (h : c.placeRendered path url dest makeParents env d₁ = (.ok answer, d')) :
    answer = [] ∧ d' = d ∨ answer = (c.templateTarget url dest env).text ∧
      ∃ near d₂ spot, FreshIn near path d ∧
        Raised (c.templateTarget url dest env).parent d d₂ ∧ (makeParents = false → d₂ = d) ∧
        c.Settled near (c.templateTarget url dest env) content d₂ d' spot := by
  cases hwrites with
  | @rendered path parent name x hfree =>
    obtain ⟨hnone, -⟩ := Disk.spot_of_follow (Disk.follow_of_locate hfree)
    obtain ⟨ready, t, hready, h⟩ := Action.exists_of_bind_ok h
    obtain ⟨hraised, ht, hsame⟩ := Chores.raised_prepareParent (hd.put_free hfree _).2 hready
    cases ready with
    | false =>
      rw [hsame (.inl rfl)] at h
      cases h
      exact .inl ⟨rfl, Disk.discard_put_of_free hfree⟩
    | true =>
      obtain ⟨u, t', hmove, h⟩ := Action.exists_of_bind_ok h
      cases h
      obtain ⟨d₂, spot, rfl, hraised', hsettled⟩ := Disk.settled_of_move hfree hraised ht hmove
      refine .inr ⟨rfl, parent, _, spot, ⟨name, hfree⟩, hraised', fun hspared => ?_, hsettled⟩
      rw [hsame (.inr hspared), Disk.drop_put_of_none hnone]

/-- What rendering leaves: the disk with the cached source, and with the rendered file if there is one. -/
theorem rendered_cases (hcached : c.cacheFile text env w = (cached, S))
    (hrenders : ∀ e source, c.engines.get? engine = some (some e) → cached = .ok source →
      e.RendersAt rendering S.disk source)
    (h : c.rendered text engine env parameters w = (.ok path?, w₁)) :
    ∃ source, cached = .ok source ∧ (path? = none ∧ w₁ = S ∨ ∃ path d₁, path? = some path ∧
      w₁ = { S with disk := d₁ } ∧
      c.engines.render engine source (parameters.insert "env" env) S.disk =
        (.ok (.rendered path), d₁) ∧
      Engine.Writes (rendering source (parameters.insert "env" env) S.disk) S.disk (.rendered path)
        d₁) := by
  obtain ⟨source, t, hsource, h⟩ := Action.exists_of_bind_ok h
  rw [hcached] at hsource
  cases hsource
  refine ⟨source, rfl, ?_⟩
  rw [Action.get_bind] at h
  split at h
  · cases h
    exact .inl ⟨rfl, rfl⟩
  obtain ⟨result, t, hrun, h⟩ := Action.exists_of_bind_ok h
  cases hrender : c.engines.render engine source (parameters.insert "env" env) S.disk with
  | mk outcome d₁ =>
    rw [Action.onDisk_apply hrender] at hrun
    cases hrun
    have hwrites := Engine.writes_render (fun e hengine => hrenders e source hengine rfl) hrender
    cases result with
    | failed reason =>
      cases hwrites
      cases h
      exact .inl ⟨rfl, rfl⟩
    | rendered path =>
      cases h
      exact .inr ⟨path, d₁, rfl, rfl, rfl, hwrites⟩

/-- For every engine that on success writes one fresh file and gives its path, and on failure writes
nothing: an empty answer leaves what caching the source alone would have left. Any other answer is the
target, and on top of that the directories above the target that were missing are made, if they may be,
and at the place that the target names stands exactly the rendering of the cached source, under the
parameters with the environment among them whatever they gave for it. No other file is new. A link that
the target names on another device than the engine's file stays, and the rendering stands where it
leads. -/
theorem getTemplate_delivers (hcached : c.cacheFile text env w = (cached, S)) (hd : S.disk.Grounded)
    (hrenders : ∀ e source, c.engines.get? engine = some (some e) → cached = .ok source →
      e.RendersAt rendering S.disk source)
    (h : c.getTemplate text dest engine makeParents env parameters w = (.ok answer, w')) :
    ∃ source, cached = .ok source ∧ (answer = [] → w' = S) ∧ (answer ≠ [] →
      answer = (c.templateTarget (Url.parse text) dest env).text ∧ w'.beyond = S.beyond ∧
      ∃ path near d₁ spot,
        (c.engines.render engine source (parameters.insert "env" env) S.disk).1 =
          .ok (.rendered path) ∧
        FreshIn near path S.disk ∧
        Raised (c.templateTarget (Url.parse text) dest env).parent S.disk d₁ ∧
        (makeParents = false → d₁ = S.disk) ∧
        c.Settled near (c.templateTarget (Url.parse text) dest env)
          (rendering source (parameters.insert "env" env) S.disk) d₁ w'.disk spot ∧
        ∀ q x s, q ≠ spot.place → w'.disk.get? q = some (.file x s) →
          S.disk.get? q = some (.file x s)) := by
  rw [getTemplate_eq] at h
  obtain ⟨path?, w₁, hrendered, h⟩ := Action.exists_of_bind_ok h
  obtain ⟨source, hsource, ⟨rfl, rfl⟩ | ⟨path, d₁, rfl, rfl, hrender, hwrites⟩⟩ :=
    rendered_cases hcached hrenders hrendered
  · cases h
    exact ⟨source, hsource, fun _ => rfl, fun hne => absurd rfl hne⟩
  · change Action.onDisk (c.placeRendered path (Url.parse text) dest makeParents env)
      { S with disk := d₁ } = (.ok answer, w') at h
    cases hplace : c.placeRendered path (Url.parse text) dest makeParents env d₁ with
    | mk result d' =>
      rw [Action.onDisk_apply hplace] at h
      cases h
      refine ⟨source, hsource, ?_⟩
      rcases placeRendered_cases hd hwrites hplace with
        ⟨rfl, rfl⟩ | ⟨rfl, near, d₂, spot, hfresh, hraised, hspared, hsettled⟩
      · exact ⟨fun _ => rfl, fun hne => absurd rfl hne⟩
      · obtain ⟨_, halike⟩ := hsettled.file
        exact ⟨fun hnil => absurd hnil text_templateTarget_ne_nil, fun _ => ⟨rfl, rfl, path, near,
          d₂, spot, congrArg Prod.fst hrender, hfresh, hraised, hspared, hsettled,
          fun _ _ _ => hraised.file_before halike⟩⟩

/-! ## Capitals beside the source -/

/-- What is read of the source in capitals, with the parameters after it. -/
def capitals (source : Path) (parameters : Parameters) (d : Disk) : Bytes :=
  (match d.read source with
    | .ok (_, content) => content
    | .error _ => []).map Bytes.upper ++ Rehearsal.Engine.appendix parameters

theorem rendersAt_upper {source : Path} {parent : Place} {name : Bytes}
    (hfree : d.locate false (systemText ⟨source.text ++ Bytes.ofString ".rendered"⟩) =
      .ok (.free parent name)) : Rehearsal.Engine.upper.RendersAt capitals d source := by
  intro parameters result d' h
  have hopen : d.openForWriting ⟨source.text ++ Bytes.ofString ".rendered"⟩ =
      .ok (parent ++ [name], d.put (parent ++ [name]) (.file false [])) := by
    rw [Disk.openForWriting, Disk.find, Disk.locate_true_of_false hfree rfl]
  rw [Rehearsal.Engine.upper, Action.get_bind, Action.get_bind, hopen] at h
  cases h
  have hwritten : (d.put (parent ++ [name]) (.file false [])).append (parent ++ [name])
      (capitals source parameters d) =
      d.put (parent ++ [name]) (.file false (capitals source parameters d)) := by
    rw [Disk.append_of_file (Disk.get?_put_self (by simp)), Disk.put_put, List.nil_append]
  exact hwritten ▸ .rendered false hfree

/-- A template of the master is cached. -/
def cachedTemplate : Except Fault Bytes × World Unit :=
  renderingCourier.cacheFile "salt://a/b" "base" MasterFiles.newCache

/-- The same template is rendered into the cache. -/
def renderedTemplate : Except Fault Bytes × World Unit :=
  renderingCourier.getTemplate "salt://a/b" [] "jinja" true "base"
    (ByteMap.insert .empty "env" "other") MasterFiles.newCache

theorem getTemplate_delivers_capitals :
    renderedTemplate.1 = .ok "cache/extrn_files/base/a/b" ∧ ∃ d₁ spot,
      Raised ⟨"cache/extrn_files/base/a"⟩ cachedTemplate.2.disk d₁ ∧
      Delivered ⟨"cache/extrn_files/base/a/b"⟩ "NEW env=base" d₁ renderedTemplate.2.disk spot := by
  have hsource : cachedTemplate = (.ok "cache/files/base/a/b", cachedTemplate.2) :=
    Prod.ext (by decide +kernel) rfl
  have hanswer : renderedTemplate.1 = .ok "cache/extrn_files/base/a/b" := by decide +kernel
  have hrun : renderedTemplate = (.ok "cache/extrn_files/base/a/b", renderedTemplate.2) :=
    Prod.ext hanswer rfl
  have hd : cachedTemplate.2.disk.Grounded :=
    ⟨Disk.isTree_of_entries (by decide +kernel), ⟨Disk.openMode, by decide +kernel⟩⟩
  have hrenders (e : Engine) (source : Bytes)
      (hengine : renderingCourier.engines.get? "jinja" = some (some e))
      (hpath : (.ok "cache/files/base/a/b" : Except Fault Bytes) = .ok source) :
      e.RendersAt capitals cachedTemplate.2.disk source := by
    have hfree : cachedTemplate.2.disk.locate false (systemText ⟨"cache/files/base/a/b.rendered"⟩) =
        .ok (.free ["cache", "files", "base", "a"] "b.rendered") := by decide +kernel
    cases hpath
    cases hengine
    exact rendersAt_upper hfree
  have hcontent : capitals ⟨"cache/files/base/a/b"⟩
      (ByteMap.insert (ByteMap.insert .empty "env" "other") "env" "base") cachedTemplate.2.disk =
        "NEW env=base" := by decide +kernel
  obtain ⟨source, hpath, -, hdelivers⟩ := getTemplate_delivers hsource hd hrenders hrun
  cases hpath
  obtain ⟨-, -, _, _, d₁, spot, -, -, hraised, -, hsettled, -⟩ := hdelivers (by decide)
  refine ⟨hanswer, d₁, spot, hraised, ?_⟩
  rw [hcontent] at hsettled
  -- All places are on one device.
  rcases hsettled with hdelivered | ⟨_, hapart, -⟩
  · exact hdelivered
  · cases hapart

/-- The same courier on a host where the directory `out` is on a device of its own. -/
def mountedCourier : Courier Unit :=
  { renderingCourier with apart := fun p q => (p == ["out"]) != (q == ["out"]) }

/-- In this directory is a link to a file elsewhere. -/
def mountedWorld : World Unit where
  disk := ⟨[(["cache"], .dir 0o755), (["victim"], .file false "old"), (["out"], .dir 0o755),
    (["out", "t"], .link "/victim")], []⟩
  beyond := ()

def mountedCached : World Unit := (mountedCourier.cacheFile "salt://a/b" "base" mountedWorld).2

/-- The rendering for the place of the link is written to the other file, and the link stays. -/
theorem rendering_overwrites_elsewhere :
    Rehearsal.Engine.upper.RendersAt capitals mountedCached.disk ⟨"cache/files/base/a/b"⟩ ∧
      mountedCached.disk.get? ["victim"] = some (.file false "old") ∧ ∃ w',
        mountedCourier.getTemplate "salt://a/b" "out/t" "jinja" false "base" .empty mountedWorld =
          (.ok "out/t", w') ∧
        w'.disk.get? ["victim"] = some (.file false "NEW env=base") ∧
        w'.disk.get? ["out", "t"] = some (.link "/victim") := by
  have hfree : mountedCached.disk.locate false (systemText ⟨"cache/files/base/a/b.rendered"⟩) =
      .ok (.free ["cache", "files", "base", "a"] "b.rendered") := by decide +kernel
  exact ⟨rendersAt_upper hfree, by decide +kernel, _, Prod.ext (by decide +kernel) rfl,
    by decide +kernel, by decide +kernel⟩

end Courier

end FileCourier
