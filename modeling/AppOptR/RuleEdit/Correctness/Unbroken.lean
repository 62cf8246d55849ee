import AppOptR.RuleEdit.LineCore
import AppOptR.RuleEdit.Correctness.Listed

/-!
# `RuleEdit.Correctness.Unbroken` — edited lines stay lines

The lines an operation hands to `file_write` are joined with line feeds and cut again by the next reader. They
come back as they were as long as none of them has a line feed inside (`callsFor_written`). The lines of a
file have none; what the editor writes is made of parts of such lines and of its arguments.
-/

namespace AppOptR

open Text

variable {s t pkg thread cpus : Str} {ls : List Str} {i : Nat}

/-! ## Parts of a line -/

theorem stripComment_subset (s : Str) : stripComment s ⊆ s := List.take_subset _ _

theorem commentTail_subset (s : Str) : commentTail s ⊆ s := List.drop_subset _ _

theorem trimEnd_subset (s : Str) : trimEnd s ⊆ s := by
  obtain ⟨w, _, h⟩ := trimEnd_decomp s
  intro c hc
  rw [h]
  exact List.mem_append_left _ hc

theorem splitSingleLine_subset {body th cp : Str} (h : splitSingleLine body = some (pkg, th, cp)) :
    pkg ⊆ body ∧ th ⊆ body ∧ cp ⊆ body := by
  rw [splitSingleLine_eq] at h
  obtain ⟨⟨l, r⟩, hlr, h⟩ := Option.bind_eq_some_iff.mp h
  obtain ⟨⟨k, t⟩, hk, h⟩ := Option.map_eq_some_iff.mp h
  obtain ⟨rfl, rfl, rfl⟩ : k = pkg ∧ t = th ∧ trim r = cp := by simpa using h
  obtain ⟨rfl, _⟩ := splitLast_eq_some.mp hlr
  obtain ⟨a, b, w, w', rfl, _, _, _, rfl, rfl, _⟩ := singleKey_eq_some hk
  refine ⟨fun c hc => ?_, fun c hc => ?_, fun c hc => ?_⟩
  · have := trim_subset _ hc
    simp [this]
  · have := trim_subset _ hc
    simp [this]
  · have := trim_subset _ hc
    simp [this]

theorem outerBody_subset (p : Str) : (outerBody p).2 ⊆ p := by
  unfold outerBody
  dsimp only
  split
  · next b hb =>
    have hs := stripSuffix_eq_some.mp hb
    intro c hc
    refine stripComment_subset p ?_
    rw [hs]
    exact List.mem_append_left _ (trimEnd_subset b hc)
  · exact stripComment_subset p

/-- The key of a header is part of the line. -/
theorem parseHeader_key_subset (opens : Bool) (body : Str) : (parseHeader opens body).key ⊆ body := by
  unfold parseHeader
  split
  · next l r hs =>
    obtain ⟨rfl, _⟩ := splitLast_eq_some.mp hs
    have hl : trim l ⊆ l ++ '=' :: r := fun c hc => List.mem_append_left _ (trim_subset l hc)
    split
    · split <;> exact hl
    · exact hl
  · split <;> exact fun _ hc => hc

/-- **The key of a line** is part of it. -/
theorem parseOuter_key_subset (p : Str) : (parseOuter p).key ⊆ p := by
  have hbody := outerBody_subset p
  unfold parseOuter
  split
  next opens body hb =>
  rw [hb] at hbody
  split
  · next hs => exact fun c hc => hbody ((splitSingleLine_subset hs).1 hc)
  · split
    · exact List.nil_subset _
    · exact fun c hc => hbody (parseHeader_key_subset opens body hc)

/-! ## What holds of every line -/

section
variable {P : Str → Prop}

theorem all_getD (h : ∀ l ∈ ls, P l) (hnil : P []) (i : Nat) : P (ls.getD i []) := by
  rw [List.getD_eq_getElem?_getD]
  cases hi : ls[i]? with
  | none => exact hnil
  | some l => exact h l (List.mem_of_getElem? hi)

theorem all_set (h : ∀ l ∈ ls, P l) {l : Str} (hl : P l) : ∀ x ∈ ls.set i l, P x := by
  intro x hx
  rcases List.mem_or_eq_of_mem_set hx with hx | rfl
  · exact h x hx
  · exact hl

theorem all_eraseIdx (h : ∀ l ∈ ls, P l) : ∀ x ∈ ls.eraseIdx i, P x := fun x hx => h x (List.mem_of_mem_eraseIdx hx)

theorem all_append {ls' : List Str} (h : ∀ l ∈ ls, P l) (h' : ∀ l ∈ ls', P l) : ∀ x ∈ ls ++ ls', P x := by
  intro x hx
  rcases List.mem_append.mp hx with hx | hx
  · exact h x hx
  · exact h' x hx

theorem all_spliceAt {chunk : List Str} (h : ∀ l ∈ ls, P l) (hc : ∀ l ∈ chunk, P l) :
    ∀ x ∈ spliceAt ls i chunk, P x := by
  have htake : ∀ x ∈ ls.take i, P x := fun x hx => h x (List.mem_of_mem_take hx)
  have hdrop : ∀ x ∈ ls.drop i, P x := fun x hx => h x (List.mem_of_mem_drop hx)
  exact all_append (all_append htake hc) hdrop

/-- What the lines an edit removes are replaced by. -/
theorem all_lineRemove (h : ∀ l ∈ ls, P l) (hnil : P []) {loc : ThreadLoc}
    (hopen : loc.opens = true → ∀ l, P l → P (withComment (bareOpenLine pkg) l))
    (hclose : ∀ l, P l → P (withComment ['}'] l)) : ∀ x ∈ lineRemove ls pkg loc, P x := by
  unfold lineRemove
  split
  · next ho => exact all_set h (hopen ho _ (all_getD h hnil _))
  · split
    · exact all_set h (hclose _ (all_getD h hnil _))
    · exact all_eraseIdx h

/-- What holds of every line holds of every line after the removals, if it holds of what they leave behind. -/
theorem all_lineRemoves (h : ∀ l ∈ ls, P l) (hnil : P []) {locs : List ThreadLoc}
    (hopen : ∀ loc ∈ locs, loc.opens = true → ∀ l, P l → P (withComment (bareOpenLine pkg) l))
    (hclose : ∀ l, P l → P (withComment ['}'] l)) :
    ∀ x ∈ locs.foldl (fun ls loc => lineRemove ls pkg loc) ls, P x := by
  induction locs generalizing ls with
  | nil => exact h
  | cons loc locs ih =>
    exact ih (all_lineRemove h hnil (hopen loc (by simp)) hclose) fun l hl => hopen l (by simp [hl])

/-- **Normalising** keeps what holds of every line, if it holds of the lines it writes. -/
theorem all_normalizeSingles (h : ∀ l ∈ ls, P l) (hnil : P []) (hclose : ∀ l, P l → P (withComment ['}'] l))
    (hbare : (targetScan ls pkg).singles ≠ [] → ∀ l, P l → P (withComment (bareOpenLine pkg) l))
    (hitem : ∀ loc it, singleItem ls loc = some it → P it.2)
    (hheader : ∀ l, P l → P (trimEnd l ++ [' ', '{'])) : ∀ x ∈ normalizeSingles ls pkg, P x := by
  unfold normalizeSingles
  dsimp only
  cases hitems : (targetScan ls pkg).singles.filterMap (singleItem ls) with
  | nil => exact h
  | cons first rest =>
    dsimp only
    split
    · exact h
    have hbare' : ∀ l, P l → P (withComment (bareOpenLine pkg) l) := hbare fun hn => by simp [hn] at hitems
    have htexts : ∀ l ∈ (first :: rest).map (·.2), P l := by
      intro l hl
      obtain ⟨it, hit, rfl⟩ := List.mem_map.mp hl
      rw [← hitems] at hit
      obtain ⟨loc, _, hloc⟩ := List.mem_filterMap.mp hit
      exact hitem loc it hloc
    have hremoved : ∀ x ∈ (first :: rest).reverse.foldl (fun ls it => lineRemove ls pkg it.1) ls, P x := by
      rw [← List.foldl_map (f := fun it : ThreadLoc × Str => it.1) (g := fun ls loc => lineRemove ls pkg loc)]
      exact all_lineRemoves h hnil (fun _ _ _ => hbare') hclose
    have hend : ∀ l ∈ [['}']], P l := by
      intro l hl
      rw [List.mem_singleton.mp hl]
      exact hclose [] hnil
    have hbegin : ∀ l ∈ [bareOpenLine pkg], P l := by
      intro l hl
      have hline : withComment (bareOpenLine pkg) [] = bareOpenLine pkg := rfl
      rw [List.mem_singleton.mp hl, ← hline]
      exact hbare' [] hnil
    unfold placeItems
    dsimp only
    split
    · exact all_spliceAt hremoved htexts
    · exact all_spliceAt (all_set hremoved (hheader _ (all_getD hremoved hnil _))) (all_append htexts hend)
    · exact all_spliceAt hremoved (all_append (all_append hbegin htexts) hend)

end

/-! ## Lines without a line feed -/

/-- No line has a line feed inside. -/
def Unbroken (ls : List Str) : Prop := ∀ l ∈ ls, '\n' ∉ l

/-- The lines of a text are lines. -/
theorem unbroken_lines (s : Str) : Unbroken (lines s) := fun _ hl => lines_no_newline hl

theorem Unbroken.getD (h : Unbroken ls) (i : Nat) : '\n' ∉ ls.getD i [] := all_getD h (by simp) i

theorem Unbroken.set (h : Unbroken ls) {l : Str} (hl : '\n' ∉ l) : Unbroken (ls.set i l) := all_set h hl

theorem Unbroken.eraseIdx (h : Unbroken ls) : Unbroken (ls.eraseIdx i) := all_eraseIdx h

theorem Unbroken.append {ls' : List Str} (h : Unbroken ls) (h' : Unbroken ls') : Unbroken (ls ++ ls') :=
  all_append h h'

theorem Unbroken.cons (h : Unbroken ls) {l : Str} (hl : '\n' ∉ l) : Unbroken (l :: ls) := by
  intro x hx
  rcases List.mem_cons.mp hx with rfl | hx
  · exact hl
  · exact h x hx

theorem unbroken_nil : Unbroken [] := fun _ h => by cases h

theorem Unbroken.spliceAt {chunk : List Str} (h : Unbroken ls) (hc : Unbroken chunk) :
    Unbroken (spliceAt ls i chunk) := all_spliceAt h hc

/-! ## The rewritten lines -/

theorem newline_not_mem_append : '\n' ∉ s ++ t ↔ '\n' ∉ s ∧ '\n' ∉ t := by simp

/-- A line with the comment of another one. -/
theorem withComment_unbroken (hs : '\n' ∉ s) (ht : '\n' ∉ t) : '\n' ∉ withComment s t := by
  rw [withComment_eq]
  exact newline_not_mem_append.mpr ⟨hs, fun h => ht (commentTail_subset t h)⟩

theorem bareOpenLine_unbroken (h : '\n' ∉ pkg) : '\n' ∉ bareOpenLine pkg := by
  unfold bareOpenLine
  split <;> exact newline_not_mem_append.mpr ⟨h, by decide⟩

/-- A line `key=value`, with what the editor puts around it. -/
theorem pairLine_unbroken {w : Str} (hs : '\n' ∉ s) (ht : '\n' ∉ t) (hw : '\n' ∉ w) : '\n' ∉ s ++ '=' :: t ++ w := by
  simp [hs, ht, hw]

/-- A swap puts nothing into the line but the spec. -/
theorem specSwap_unbroken (hs : '\n' ∉ s) (hc : '\n' ∉ cpus) : '\n' ∉ specSwap s cpus := by
  unfold specSwap
  dsimp only
  split
  · exact hs
  · next l rhs hl =>
    obtain ⟨htake, _⟩ := splitLast_eq_some.mp hl
    have hsub : ∀ c ∈ l ++ '=' :: rhs, c ∈ s := fun c h => List.take_subset _ _ (htake ▸ h)
    have hrhs : ∀ c ∈ rhs, c ∈ s := fun c h => hsub c (by simp [h])
    have htail : ∀ c ∈ (List.dropWhile (fun c => !valueEnd c) (trimStart rhs)).filter valueEnd, c ∈ s :=
      fun c h => hrhs c ((List.dropWhile_sublist _).subset ((List.dropWhile_sublist _).subset
        (List.mem_of_mem_filter h)))
    intro hm
    simp only [List.mem_append, List.mem_cons, List.append_assoc, List.cons_append] at hm
    rcases hm with h | h | h | h | h | h
    · exact hs (hsub _ (by simp [h]))
    · exact absurd h (by decide)
    · exact hs (hrhs _ (List.take_subset _ _ h))
    · exact hc h
    · exact hs (htail _ h)
    · exact hs (List.drop_subset _ _ h)

/-- Removals keep lines lines. -/
theorem lineRemoves_unbroken (h : Unbroken ls) {locs : List ThreadLoc}
    (hpkg : ∀ loc ∈ locs, loc.opens = true → '\n' ∉ pkg) :
    Unbroken (locs.foldl (fun ls loc => lineRemove ls pkg loc) ls) :=
  all_lineRemoves h (by simp)
    (fun loc hloc ho _ hl => withComment_unbroken (bareOpenLine_unbroken (hpkg loc hloc ho)) hl)
    fun _ hl => withComment_unbroken (by decide) hl

/-- A package of which the scan lists a header or a single-line rule is part of a line. -/
theorem scanned_unbroken (h : Unbroken ls) :
    (∀ l, (targetScan ls pkg).pkgLine = some l → '\n' ∉ pkg) ∧
      ∀ loc ∈ (targetScan ls pkg).singles, '\n' ∉ pkg := by
  have hlisted := targetScan_listed ls pkg
  have hkey : ∀ i, (parseOuter (trim (ls.getD i []))).key = pkg → '\n' ∉ pkg := fun i hi hm =>
    h.getD i (trim_subset _ (parseOuter_key_subset _ (hi ▸ hm)))
  constructor
  · intro l hl
    have hr := (hlisted.header l hl).2
    cases l with
    | standalone i =>
      obtain ⟨_, cpus, hr⟩ := hr
      exact hkey i (by rw [hr]; rfl)
    | openInline i =>
      obtain ⟨cpus, hr⟩ := hr
      exact hkey i (by rw [hr]; rfl)
    | bareOpen i => exact hkey i (by rw [show parseOuter _ = _ from hr]; rfl)
    | barePending i => exact hkey i (by rw [show parseOuter _ = _ from hr]; rfl)
  · intro loc hloc
    obtain ⟨t, ht, hs⟩ : ∃ t ∈ (targetScan ls pkg).threads, t.2 = loc ∧ loc.single = true := by
      obtain ⟨hm, hs⟩ := List.mem_filter.mp hloc
      obtain ⟨t, ht, rfl⟩ := List.mem_map.mp hm
      exact ⟨t, ht, rfl, hs⟩
    obtain ⟨rfl, hs⟩ := hs
    obtain ⟨_, cpus, hr⟩ := (hlisted.threads t ht).reads hs
    exact hkey t.2.idx (by rw [hr]; rfl)

/-- A single-line rule leaves a line of a block. -/
theorem singleItem_unbroken (h : Unbroken ls) {loc : ThreadLoc} {it : ThreadLoc × Str}
    (hi : singleItem ls loc = some it) : '\n' ∉ it.2 := by
  unfold singleItem at hi
  dsimp only at hi
  obtain ⟨⟨pg, th, cp⟩, hs, rfl⟩ := Option.map_eq_some_iff.mp hi
  have hraw : '\n' ∉ trim (ls.getD loc.idx []) := fun hm => h.getD _ (trim_subset _ hm)
  have hbody : ((stripSuffix '{' (stripComment (trim (ls.getD loc.idx [])))).map trimEnd).getD
      (stripComment (trim (ls.getD loc.idx []))) ⊆ trim (ls.getD loc.idx []) := by
    have := outerBody_subset (trim (ls.getD loc.idx []))
    unfold outerBody at this
    dsimp only at this
    cases hsuf : stripSuffix '{' (stripComment (trim (ls.getD loc.idx []))) with
    | none =>
      rw [hsuf] at this
      exact this
    | some b =>
      rw [hsuf] at this
      exact this
  obtain ⟨_, hth, hcp⟩ := splitSingleLine_subset hs
  refine withComment_unbroken ?_ hraw
  have hline : '\n' ∉ ('\t' :: th) ++ '=' :: cp ++ [] := by
    refine pairLine_unbroken ?_ (fun hm => hraw (hbody (hcp hm))) (by simp)
    simp only [List.mem_cons, not_or]
    exact ⟨by decide, fun hm => hraw (hbody (hth hm))⟩
  simpa using hline

/-- **Normalising** breaks no line. -/
theorem normalizeSingles_unbroken (h : Unbroken ls) : Unbroken (normalizeSingles ls pkg) := by
  refine all_normalizeSingles h (by simp) (fun _ hl => withComment_unbroken (by decide) hl) (fun hne _ hl => ?_)
    (fun _ _ hi => singleItem_unbroken h hi) fun l hl => ?_
  · obtain ⟨loc, hloc⟩ := List.exists_mem_of_ne_nil _ hne
    exact withComment_unbroken (bareOpenLine_unbroken ((scanned_unbroken h).2 loc hloc)) hl
  · exact newline_not_mem_append.mpr ⟨fun hm => hl (trimEnd_subset _ hm), by decide⟩

end AppOptR
