import AppOptR.RuleEdit.Correctness.Changed
import AppOptR.RuleEdit.Correctness.DeletePackage
import AppOptR.RuleEdit.Correctness.RenameEnds

/-!
# `RuleEdit.Correctness.RenameCarries` — what a rename does to the rules

A line that is renamed safely (`RenameSafe`) is the same line of the new package. So where every line of a round
is, the rules of the text before and after the round are the same up to the name (`round_rekeyed`): every place
and every entry is carried over by the map that takes the old name to the new one and no other name anywhere.
Since the new package had no rule, it ends with those of the old one (`rename_carries`).
-/

namespace AppOptR

open Text Json Relation

variable {old new q l : Str} {ls ls' : List Str} {f : Str → Str} {p p' : Place} {r : Role} {lo : OuterLine}

/-! ## Places under a map of the keys -/

/-- An entry under a map of the packages. -/
def mapEntry (f : Str → Str) (e : Str × Str × Str) : Str × Str × Str := (f e.1, e.2)

/-- The same place, up to the name. -/
inductive SameUnder (f : Str → Str) : Place → Place → Prop
  | outside : SameUnder f (.outside none) (.outside none)
  | waiting {k k' : Str} (h : f k = f k') : SameUnder f (.outside (some k)) (.outside (some k'))
  | inside {k k' : Str} (h : f k = f k') : SameUnder f (.inside k) (.inside k')

theorem SameUnder.refl : ∀ p : Place, SameUnder f p p
  | .outside none => .outside
  | .outside (some _) => .waiting rfl
  | .inside _ => .inside rfl

theorem SameUnder.role (h : SameUnder f p p') (l : Str) : roleOf p l = roleOf p' l := by
  cases h <;> rfl

theorem SameUnder.entry (h : SameUnder f p p') (r : Role) :
    (AppOptR.entry p r).map (mapEntry f) = (AppOptR.entry p' r).map (mapEntry f) := by
  cases h with
  | outside => rfl
  | waiting hk => cases r <;> rfl
  | inside hk =>
    cases r with
    | thread name cpus closed => simp [AppOptR.entry, mapEntry, hk]
    | outer lo => cases lo <;> rfl
    | _ => rfl

/-- A role leads from the same place to the same place. -/
theorem SameUnder.next (h : SameUnder f p p') (r : Role) : SameUnder f (nextPlace p r) (nextPlace p' r) := by
  cases r with
  | skip => exact h
  | idle => exact h
  | close => exact .outside
  | thread name cpus closed =>
    cases closed with
    | true => exact .outside
    | false => exact h
  | outer lo =>
    cases lo with
    | single pg th cpus opens => exact .refl _
    | rule pg cpus opens => exact .refl _
    | pending key => exact .refl _
    | junk => exact .outside
    | bareOpen pg =>
      by_cases hpg : pg = []
      · subst hpg
        cases h with
        | outside => exact .outside
        | waiting hk => exact .inside hk
        | inside hk => exact .inside hk
      · simp only [nextPlace, ne_eq, hpg, not_false_eq_true, if_true]
        exact .refl _

/-- A line of another package leads to the same place, and states the same rule. -/
theorem withKey_next (hf : f lo.key = f new) (hkey : lo.key ≠ []) (hnew : new ≠ []) (w w' : Option Str) :
    SameUnder f (nextPlace (.outside w) (.outer lo)) (nextPlace (.outside w') (.outer (lo.withKey new))) ∧
      (AppOptR.entry (.outside w) (.outer lo)).map (mapEntry f) =
        (AppOptR.entry (.outside w') (.outer (lo.withKey new))).map (mapEntry f) := by
  cases lo with
  | single pg th cpus opens =>
    have hpg : f pg = f new := hf
    refine ⟨?_, by simp [AppOptR.entry, OuterLine.withKey, mapEntry, hpg]⟩
    cases opens with
    | true => exact .inside hpg
    | false => exact .outside
  | rule pg cpus opens =>
    have hpg : f pg = f new := hf
    refine ⟨?_, by simp [AppOptR.entry, OuterLine.withKey, mapEntry, hpg]⟩
    cases opens with
    | true => exact .inside hpg
    | false => exact .outside
  | pending key => exact ⟨.waiting hf, rfl⟩
  | junk => exact absurd rfl hkey
  | bareOpen pg =>
    have hpg : pg ≠ [] := hkey
    refine ⟨?_, rfl⟩
    simp only [nextPlace, OuterLine.withKey, ne_eq, hpg, hnew, not_false_eq_true, if_true]
    exact .inside hf

/-! ## One round -/

/-- The old name becomes the new one, and no other name does. -/
def renameKey (old new k : Str) : Str := if k = old then new else k

theorem renameKey_old : renameKey old new old = new := if_pos rfl

theorem renameKey_new : renameKey old new new = new := by
  unfold renameKey
  split
  · rfl
  · rfl

theorem renameKey_nil (hold : old ≠ []) (hnew : new ≠ []) {k : Str} : renameKey old new k = [] ↔ k = [] := by
  unfold renameKey
  split
  · next h => simp [h, hold, hnew]
  · exact Iff.rfl

/-- The numbered line after a round that rewrites the lines `is`. -/
def roundLine (old new : Str) (is : List Nat) (l : Str × Nat) : Str :=
  if l.2 ∈ is then renameLine old new l.1 else l.1

theorem rewrites_getElem? {is : List Nat} (hd : is.Nodup) (ls : List Str) (j : Nat) :
    (is.foldl (renameAt old new) ls)[j]? = ls[j]?.map fun l => if j ∈ is then renameLine old new l else l := by
  induction is generalizing ls with
  | nil => simp
  | cons i is ih =>
    obtain ⟨hi, hrest⟩ := List.nodup_cons.mp hd
    rw [List.foldl_cons, ih hrest, renameAt]
    by_cases hij : i = j
    · subst hij
      rw [List.getElem?_set_self']
      cases h : ls[i]? with
      | none => rfl
      | some l => simp [hi, h]
    · rw [List.getElem?_set_ne hij]
      simp [Ne.symm hij]

theorem renamedLines_eq (ls : List Str) :
    renamedLines old new ls = ls.zipIdx.map (roundLine old new (renameRound (targetScan ls old))) := by
  apply List.ext_getElem?
  intro j
  rw [renamedLines, rewrites_getElem? renameRound_nodup, List.getElem?_map, List.getElem?_zipIdx, Option.map_map]
  simp [roundLine, Function.comp_def]

/-- The lines of a round can all be renamed safely. -/
def RoundSafe (old new : Str) (ls : List Str) : Prop :=
  ∀ i ∈ renameRound (targetScan ls old), RenameSafe old new (ls.getD i [])

instance (old new : Str) (ls : List Str) : Decidable (RoundSafe old new ls) :=
  inferInstanceAs (Decidable (∀ i ∈ _, _))

/-- A line of a round stands outside every block, and is one of the old package. -/
theorem renameRound_line (hc : ClashFree ls) {i : Nat}
    (h : i ∈ renameRound (targetScan ls old)) : ∃ lo, LineAt ls i (.outer lo) ∧ lo.key = old := by
  rcases renameRound_cases h with ⟨loc, hloc, rfl⟩ | ⟨l, hl, rfl⟩
  · obtain ⟨pre, line, post, th, cpus, opens, hls, hrole, rfl⟩ := (mem_singles_iff hc).mp hloc
    exact ⟨_, ⟨pre, line, post, hls, rfl, hrole⟩, rfl⟩
  · have hstanding := (targetScan_found old hc).2.standing l hl
    cases l with
    | standalone i =>
      obtain ⟨cpus, hat⟩ := hstanding
      exact ⟨_, hat, rfl⟩
    | openInline i =>
      obtain ⟨o, hio, cpus, hat⟩ := hstanding
      exact ⟨_, hat, rfl⟩
    | bareOpen i =>
      obtain ⟨o, hio, _, hat⟩ := hstanding
      exact ⟨_, hat, rfl⟩
    | barePending i =>
      obtain ⟨o, pre, header, mid, brace, post, hls, hi, _, hrole, _⟩ := hstanding
      exact ⟨_, ⟨pre, header, mid ++ brace :: post, hls, hi, hrole⟩, rfl⟩

/-- What a safe round does at one line. -/
def RenameGuard (old new : Str) (is : List Nat) (place : Place) (l : Str × Nat) : Prop :=
  ¬ Clash place l.1 ∧ (l.2 ∈ is → ∃ w lo, place = .outside w ∧ roleOf place l.1 = .outer lo ∧ lo.key = old ∧
    ∀ w', roleOf (.outside w') (renameLine old new l.1) = .outer (lo.withKey new))

/-- All entries of a text. -/
def entries (ls : List Str) : List (Str × Str × Str) :=
  (Mealy.emit outlineStep Place.start ls).flatMap fun l => entry l.1 l.2

theorem seen_entries (q : Str) (ls : List Str) :
    seen q Place.start ls = ((entries ls).filter fun e => e.1 = q).map (·.2) := by
  unfold seen entries entriesFor
  rw [List.filter_flatMap, List.map_flatMap]

theorem renameGuard_along (hk : RenameKeys old new) (hc : ClashFree ls) (hsafe : RoundSafe old new ls) :
    Mealy.Along (Mealy.through outlineStep Prod.fst) (RenameGuard old new (renameRound (targetScan ls old)))
      Place.start ls.zipIdx := by
  by_contra hnot
  obtain ⟨pre, ⟨l, i⟩, post, hls, _, hg⟩ := Mealy.not_along hnot
  -- the line where the guard fails, in the text itself
  have htext : ls = pre.map Prod.fst ++ l :: post.map Prod.fst := by
    have h := congrArg (List.map Prod.fst) hls
    rwa [List.zipIdx_map_fst, List.map_append, List.map_cons] at h
  have hidx : i = pre.length := by
    have h := congrArg (fun es => es[pre.length]?) hls
    simp only [List.getElem?_append_right le_rfl, Nat.sub_self, List.getElem?_cons_zero, List.getElem?_zipIdx,
      Option.map_eq_some_iff, Prod.mk.injEq] at h
    obtain ⟨_, _, _, h⟩ := h
    omega
  have hplace : Mealy.final (Mealy.through outlineStep Prod.fst) Place.start pre = placeAfter (pre.map Prod.fst) :=
    Mealy.final_through _ _ _
  rw [hplace] at hg
  refine hg ⟨Mealy.along_at (htext ▸ hc), fun hi => ?_⟩
  obtain ⟨lo, hat, hkey⟩ := renameRound_line hc hi
  have htake : ls.take i = pre.map Prod.fst := by rw [htext, hidx, ← List.length_map Prod.fst, List.take_left]
  have hget : ls.getD i [] = l := by
    rw [htext, hidx, ← List.length_map Prod.fst]
    exact getD_after l
  obtain ⟨_, _, hrole⟩ := hat.split
  rw [htake, hget] at hrole
  obtain ⟨⟨w, hw⟩, _, hparse⟩ := outer_place hrole
  have hlsafe := hsafe i hi
  rw [hget] at hlsafe
  obtain ⟨hshown, hrenamed⟩ := parse_rename hk (by rw [hparse]; exact hkey) hlsafe
  refine ⟨w, lo, hw, hrole, hkey, fun w' => ?_⟩
  show roleOf (.outside w') (renameLine old new l) = _
  rw [roleOf_outside hshown, hrenamed, hparse]

/-- **One line**: read in the same place up to the name, it leads to the same place and states the same rule. -/
theorem rename_sim (hk : RenameKeys old new) (is : List Nat) :
    Mealy.Sim (Mealy.through outlineStep Prod.fst) (Mealy.through outlineStep (roundLine old new is))
      (RenameGuard old new is) (SameUnder (renameKey old new))
      (fun l => (entry l.1 l.2).map (mapEntry (renameKey old new)))
      (fun l => (entry l.1 l.2).map (mapEntry (renameKey old new))) := by
  have hstep : ∀ {p p' : Place} {l : Str × Nat}, SameUnder (renameKey old new) p p' → RenameGuard old new is p l →
      SameUnder (renameKey old new) (nextPlace p (roleOf p l.1))
          (nextPlace p' (roleOf p' (roundLine old new is l))) ∧
        (entry p (roleOf p l.1)).map (mapEntry (renameKey old new)) =
          (entry p' (roleOf p' (roundLine old new is l))).map (mapEntry (renameKey old new)) := by
    intro p p' l hp hg
    by_cases hi : l.2 ∈ is
    · obtain ⟨w, lo, rfl, hrole, hkey, hrenamed⟩ := hg.2 hi
      have hline : roundLine old new is l = renameLine old new l.1 := if_pos hi
      obtain ⟨w', rfl⟩ : ∃ w', p' = .outside w' := by
        cases hp with
        | outside => exact ⟨_, rfl⟩
        | waiting _ => exact ⟨_, rfl⟩
      rw [hline, hrole, hrenamed w']
      exact withKey_next (by rw [hkey, renameKey_old, renameKey_new]) (by rw [hkey]; exact hk.oldKey.ne)
        hk.newKey.ne w w'
    · have hline : roundLine old new is l = l.1 := if_neg hi
      rw [hline, ← hp.role]
      exact ⟨hp.next _, hp.entry _⟩
  refine ⟨fun hp hg => (hstep hp hg).1, fun {p p' l} hp hg => ?_⟩
  show List.flatMap _ [_] = List.flatMap _ [_]
  simpa using (hstep hp hg).2

theorem withKey_key (h : lo.key ≠ []) : (lo.withKey new).key = new := by
  cases lo with
  | junk => exact absurd rfl h
  | _ => rfl

/-- The renamed line brings no clash. -/
theorem rename_clash (hk : RenameKeys old new) {is : List Nat} {l : Str × Nat}
    (hp : SameUnder (renameKey old new) p p') (hg : RenameGuard old new is p l) :
    ¬ Clash p' (roundLine old new is l) := by
  rintro ⟨rfl, hrole⟩
  by_cases hi : l.2 ∈ is
  · obtain ⟨_, lo, _, _, hkey, hrenamed⟩ := hg.2 hi
    rw [roundLine, if_pos hi, hrenamed, Role.outer.injEq] at hrole
    have hnew := @withKey_key new lo (by rw [hkey]; exact hk.oldKey.ne)
    rw [hrole] at hnew
    exact hk.newKey.ne hnew.symm
  · rw [roundLine, if_neg hi, ← hp.role] at hrole
    cases hp with
    | waiting hkey =>
      have hnil : renameKey old new [] = [] := (renameKey_nil hk.oldKey.ne hk.newKey.ne).mpr rfl
      rw [hnil] at hkey
      obtain rfl := (renameKey_nil hk.oldKey.ne hk.newKey.ne).mp hkey
      exact hg.1 ⟨rfl, hrole⟩

/-- **A safe round** carries every entry over. -/
theorem round_rekeyed (hk : RenameKeys old new) (hc : ClashFree ls) (hsafe : RoundSafe old new ls) :
    ClashFree (renamedLines old new ls) ∧
      (entries (renamedLines old new ls)).map (mapEntry (renameKey old new)) =
        (entries ls).map (mapEntry (renameKey old new)) := by
  have hsim := rename_sim hk (renameRound (targetScan ls old))
  have hguard := renameGuard_along hk hc hsafe
  have hmap : ls.zipIdx.map Prod.fst = ls := List.zipIdx_map_fst _ _
  rw [renamedLines_eq]
  constructor
  · exact (Mealy.along_through (G := fun place line => ¬ Clash place line) _ _ _).mp
      (hsim.along (rename_clash hk) (SameUnder.refl _) hguard)
  · have hrun := (hsim.run (SameUnder.refl _) hguard).2
    rw [Mealy.emit_through, Mealy.emit_through, hmap] at hrun
    unfold entries
    rw [List.map_flatMap, List.map_flatMap]
    exact hrun.symm

/-! ## The whole run -/

/-- Every round of the loop is safe. -/
def RoundsSafe (old new : Str) (ls : List Str) : Prop :=
  ∀ ls', ReflTransGen (RenameStep old new) ls ls' → RoundSafe old new ls'

theorem rounds_rekeyed (hk : RenameKeys old new) (hc : ClashFree ls) (hsafe : RoundsSafe old new ls)
    (hrun : ReflTransGen (RenameStep old new) ls ls') :
    ClashFree ls' ∧ (entries ls').map (mapEntry (renameKey old new)) =
      (entries ls).map (mapEntry (renameKey old new)) := by
  induction hrun with
  | refl => exact ⟨hc, rfl⟩
  | @tail mid ls' hmid hstep ih =>
    obtain ⟨hcmid, hsame⟩ := ih
    rw [hstep.2]
    obtain ⟨hc', hround⟩ := round_rekeyed hk hcmid (hsafe mid hmid)
    exact ⟨hc', hround.trans hsame⟩

/-- What a package that is neither of the two sees. -/
theorem rekeyed_other (hq : q ≠ old) (hq' : q ≠ new)
    (h : (entries ls').map (mapEntry (renameKey old new)) = (entries ls).map (mapEntry (renameKey old new))) :
    seen q Place.start ls' = seen q Place.start ls := by
  have hview : ∀ ls : List Str, seen q Place.start ls =
      (((entries ls).map (mapEntry (renameKey old new))).filter fun e => e.1 = q).map (·.2) := by
    intro ls
    rw [seen_entries, List.filter_map, List.map_map]
    congr 1
    refine List.filter_congr fun e _ => ?_
    show decide (e.1 = q) = decide (renameKey old new e.1 = q)
    unfold renameKey
    split
    · next he => simp [he, Ne.symm hq, Ne.symm hq']
    · rfl
  rw [hview, hview, h]

/-- What the two packages see together. -/
theorem rekeyed_new (h : (entries ls').map (mapEntry (renameKey old new)) =
      (entries ls).map (mapEntry (renameKey old new)))
    (hold : seen old Place.start ls' = []) (hnew : seen new Place.start ls = []) :
    seen new Place.start ls' = seen old Place.start ls := by
  have hview : ∀ {k k' : Str} {ls : List Str}, (k = old ∧ k' = new ∨ k = new ∧ k' = old) →
      seen k' Place.start ls = [] → seen k Place.start ls =
        (((entries ls).map (mapEntry (renameKey old new))).filter fun e => e.1 = new).map (·.2) := by
    intro k k' ls hkk hnone
    rw [seen_entries, List.map_eq_nil_iff, List.filter_eq_nil_iff] at hnone
    rw [seen_entries, List.filter_map, List.map_map]
    congr 1
    refine List.filter_congr fun e he => ?_
    have hne : e.1 ≠ k' := by simpa using hnone e he
    show decide (e.1 = k) = decide (renameKey old new e.1 = new)
    unfold renameKey
    rcases hkk with ⟨rfl, rfl⟩ | ⟨rfl, rfl⟩
    · split
      · next h => simp [h]
      · next h => simp [h, hne]
    · simp [hne]
  rw [hview (.inr ⟨rfl, rfl⟩) hold, hview (.inl ⟨rfl, rfl⟩) hnew, h]

/-- A plain new name is safe in every line. -/
theorem PlainName.renameSafe (hp : PlainName new) (hne : new ≠ []) (l : Str) : RenameSafe old new l := by
  have hclose : ∀ x : Str, closeLike (new ++ x) = false := by
    intro x
    match new, hne with
    | c :: r, _ =>
      have hc : c ≠ '}' := fun h => hp.noClose (by simp [h])
      simp [closeLike, hc]
  have heq : EqSafe old new l := fun h => absurd h hp.noEq
  unfold RenameSafe
  split
  · exact hp.noOpen
  · exact .inr (hclose _)
  · exact heq
  · exact ⟨heq, hclose _, fun _ _ h => hp.noOpen (List.mem_of_getLast? h)⟩
  · trivial

theorem PlainName.roundsSafe (hp : PlainName new) (hne : new ≠ []) (ls : List Str) : RoundsSafe old new ls :=
  fun _ _ _ _ => hp.renameSafe hne _

/-! ## Written and loaded -/

theorem renameLine_unbroken (hnew : '\n' ∉ new) (hl : '\n' ∉ l) : '\n' ∉ renameLine old new l := by
  unfold renameLine
  cases hs : stripPrefix old (trim l) with
  | none => exact hl
  | some rest =>
    have hrest : '\n' ∉ rest := by
      unfold stripPrefix at hs
      split at hs
      · obtain rfl := Option.some.inj hs
        exact fun hm => hl (trim_subset l (List.drop_subset _ _ hm))
      · cases hs
    dsimp only
    refine newline_not_mem_append.mpr ⟨hnew, ?_⟩
    split
    · split
      · decide
      · split
        · decide
        · exact hrest
    · exact hrest

theorem rename_rounds_unbroken (hnew : '\n' ∉ new) (hrun : ReflTransGen (RenameStep old new) ls ls')
    (hls : Unbroken ls) : Unbroken ls' := by
  induction hrun with
  | refl => exact hls
  | @tail mid ls' _ hstep ih =>
    rw [hstep.2, renamedLines_eq]
    intro x hx
    obtain ⟨⟨l, i⟩, hl, rfl⟩ := List.mem_map.mp hx
    have hmem : '\n' ∉ l := ih l (List.fst_mem_of_mem_zipIdx hl)
    unfold roundLine
    split
    · exact renameLine_unbroken hnew hmem
    · exact hmem

/-- An `Ok` of `rule_rename`, taken apart. -/
theorem ruleRename_ok {fuel : Nat} {text text' : Str}
    (h : ruleRename fuel true (some text) old new = some (.ok, some text')) :
    ∃ out, text' = unlines out ∧ renameLines fuel old new (lines text) = some (.ok out) := by
  unfold ruleRename at h
  obtain ⟨edit, hlines, hfile⟩ := Option.map_eq_some_iff.mp h
  cases edit with
  | error e =>
    obtain ⟨rfl, _⟩ := Prod.mk.inj hfile
    rcases renameLines_error hlines with he | he <;> cases he
  | ok out => exact ⟨out, (Option.some.inj (Prod.mk.inj hfile).2).symm, hlines⟩

/-- The written text has no rule for the old package, and for the new one those the old one had. -/
structure Carried (createCpusetDir : Nat → Str → Bool) (topo : CpuTopology) (old new text text' : Str) : Prop where
  gone : rulesFor old (loadLines createCpusetDir topo (lines text')).rules = []
  carried : (rulesFor new (loadLines createCpusetDir topo (lines text')).rules).Perm
    (rulesFor old (loadLines createCpusetDir topo (lines text)).rules)

theorem RenameArgs.keys (h : RenameArgs old new) : RenameKeys old new := ⟨h.oldName.key, h.newName.key, h.shape⟩

/-- The lines a rename writes, package by package. -/
structure Renames (old new : Str) (ls ls' : List Str) : Prop where
  unbroken : Unbroken ls → Unbroken ls'
  clashFree : ClashFree ls'
  gone : seen old Place.start ls' = []
  carried : (seen new Place.start ls').Perm (seen old Place.start ls)
  others : ∀ q, q ≠ old → q ≠ new → seen q Place.start ls' = seen q Place.start ls

theorem rename_written {fuel : Nat} (hargs : RenameArgs old new) (hok : renameLines fuel old new ls = some (.ok ls'))
    (hc : ClashFree ls) (hnorm : normalizeRuns ls old = true → NormalizeSafe ls old)
    (hsafe : RoundsSafe old new (normalizeSingles ls old)) : Renames old new ls ls' := by
  have hkept := normalizeSingles_kept hc hnorm
  obtain ⟨hloop, hnone⟩ := renameLines_ok hok
  obtain ⟨hrun, hdone⟩ := renameLoop_exit hloop
  obtain ⟨hcout, hsame⟩ := rounds_rekeyed hargs.keys hkept.clashFree hsafe hrun
  have hold : seen old Place.start ls' = [] := by
    rw [← callsFor_eq_seen hcout]
    exact callsFor_nil hargs.oldName.ne hcout (by simp [Target.anyLine, hdone.1, hdone.2])
  have hnew : seen new Place.start (normalizeSingles ls old) = [] := by
    rw [← callsFor_eq_seen hkept.clashFree]
    exact callsFor_nil hargs.newName.ne hkept.clashFree hnone
  refine ⟨fun hls => rename_rounds_unbroken hargs.newName.no_newline hrun (normalizeSingles_unbroken hls), hcout,
    hold, ?_, fun q hq hq' => ?_⟩
  · rw [rekeyed_new hsame hold hnew]
    exact hkept.own
  · rw [rekeyed_other hq hq' hsame, hkept.others q hq]

end AppOptR
