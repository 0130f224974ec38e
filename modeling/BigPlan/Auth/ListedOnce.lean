import BigPlan.Auth.CascadingDelete
import BigPlan.Auth.LowerPositions
import Mathlib.Data.List.Pairwise

/-!
# When the positions are listed once

The walk below one position lists each position there once. The walks below several own positions
overlap exactly if one of these is below another: the list is right if no own position that
shows up in it is, none is held twice, and the company asked for is there.
-/
namespace BigPlan.Auth.PositionServiceImpl

open Lib
open Lib.Forest Lib.Recursion
open OrgTree

variable {t : Table PositionEntity} {lowerId : Option Int} {o o' x y r : Int} {p q : PositionRow}

/-- The second position is right below the first one, and neither is the one to leave out. -/
def Down (t : Table PositionEntity) (lowerId : Option Int) (x y : Int) : Prop :=
  above t y = some x ∧ some x ≠ lowerId ∧ some y ≠ lowerId

/-- A downward path leads from the first position to the second one. -/
def Below (t : Table PositionEntity) (lowerId : Option Int) : Int → Int → Prop :=
  Relation.TransGen (Down t lowerId)

def Acyclic (t : Table PositionEntity) : Prop :=
  ∀ id, ¬ Relation.TransGen (fun x y => above t x = some y) id id

/-! ## Paths -/

theorem exists_mem_of_down (h : Down t lowerId x y) : ∃ e, (y, e) ∈ t.rows := by
  obtain ⟨e, hmem, -⟩ := above_eq_some.mp h.1
  exact ⟨e, hmem⟩

theorem exists_mem_of_below (h : Below t lowerId x y) : ∃ e, (y, e) ∈ t.rows := by
  cases h with
  | single h => exact exists_mem_of_down h
  | tail hrest h => exact exists_mem_of_down h

theorem Below.ne (hacyclic : Acyclic t) (h : Below t lowerId x y) : x ≠ y := by
  intro heq
  subst heq
  have hup : Relation.TransGen (Function.swap fun x y => above t x = some y) x x :=
    Relation.TransGen.mono (fun _ _ hdown => hdown.1) x x h
  exact hacyclic x (Relation.transGen_swap.mp hup)

/-- Two positions with a common one below them are on one path. -/
theorem below_or_below (h : Relation.ReflTransGen (Down t lowerId) x r)
    (h' : Relation.ReflTransGen (Down t lowerId) y r) (hne : x ≠ y) :
    Below t lowerId x y ∨ Below t lowerId y x := by
  have hunique : Relator.RightUnique (Function.swap (Down t lowerId)) :=
    fun _ _ _ hb hc => Option.some_inj.mp (hb.1.symm.trans hc.1)
  rcases Relation.ReflTransGen.total_of_right_unique hunique
    (Relation.reflTransGen_swap.mpr h) (Relation.reflTransGen_swap.mpr h') with hyx | hxy
  · rcases Relation.reflTransGen_iff_eq_or_transGen.mp (Relation.reflTransGen_swap.mp hyx) with
      heq | hbelow
    · exact absurd heq hne
    · exact .inr hbelow
  · rcases Relation.reflTransGen_iff_eq_or_transGen.mp (Relation.reflTransGen_swap.mp hxy) with
      heq | hbelow
    · exact absurd heq.symm hne
    · exact .inl hbelow

/-- Of two positions right below the same one, neither is below the other. -/
theorem not_below_sibling (hacyclic : Acyclic t) (hx : Down t lowerId r x)
    (hy : above t y = some r) : ¬ Below t lowerId x y := by
  intro h
  obtain ⟨z, hreach, hdown⟩ := Relation.TransGen.tail'_iff.mp h
  cases hy.symm.trans hdown.1
  have hcycle : Below t lowerId r r := Relation.TransGen.head' hx hreach
  exact hcycle.ne hacyclic rfl

/-! ## One walk -/

/-- The walk from the position appends the rows to what was found: each once, and exactly those
of the positions that `P` holds of. -/
structure Walks (t : Table PositionEntity) (lowerId : Option Int) (init : Bool) (r : Int)
    (P : Int → Prop) (rows : List PositionRow) : Prop where
  returns : ∀ found, Returns (fun depth => deepFindLower t lowerId depth init r found) (found ++ rows)
  nodup : rows.Nodup
  mem_iff : ∀ p, p ∈ rows ↔ p ∈ t.rows ∧ P p.1

theorem deepFindLower_of_eq (h : some r = lowerId) (init : Bool) (found : List PositionRow) :
    Returns (fun depth => deepFindLower t lowerId depth init r found) found := by
  refine returns_succ.mp ?_
  simp only [deepFindLower, if_pos h]
  exact returns_pure found

/-- A walk that does not start at an own position lists its start first. -/
theorem deepFindLower_false {e : PositionEntity} (h : some r ≠ lowerId) (he : (r, e) ∈ t.rows)
    (depth : ℕ) (found : List PositionRow) :
    deepFindLower t lowerId depth false r found =
      deepFindLower t lowerId depth true r (found ++ [(r, e)]) := by
  cases depth with
  | zero => rfl
  | succ depth =>
    simp only [deepFindLower, if_neg h, Table.findById_eq_some.mpr he]
    rfl

theorem walks_of_eq (h : some r = lowerId) : Walks t lowerId true r (Below t lowerId r) [] where
  returns found := by simpa using deepFindLower_of_eq h true found
  nodup := List.nodup_nil
  mem_iff p := by
    refine iff_of_false List.not_mem_nil fun hp => ?_
    obtain ⟨y, hdown, -⟩ := Relation.TransGen.head'_iff.mp hp.2
    exact hdown.2.1 h

theorem walks_false {e : PositionEntity} {rows : List PositionRow} (hacyclic : Acyclic t)
    (h : some r ≠ lowerId) (he : (r, e) ∈ t.rows)
    (hwalks : Walks t lowerId true r (Below t lowerId r) rows) :
    Walks t lowerId false r (Relation.ReflTransGen (Down t lowerId) r) ((r, e) :: rows) where
  returns found := by
    have hrest := hwalks.returns (found ++ [(r, e)])
    rw [List.append_assoc, List.singleton_append] at hrest
    simpa only [deepFindLower_false h he] using hrest
  nodup := by
    refine List.nodup_cons.mpr ⟨fun hmem => ?_, hwalks.nodup⟩
    exact ((hwalks.mem_iff _).mp hmem).2.ne hacyclic rfl
  mem_iff p := by
    rw [List.mem_cons, hwalks.mem_iff, Relation.reflTransGen_iff_eq_or_transGen]
    constructor
    · intro hp
      rcases hp with rfl | ⟨hmem, hbelow⟩
      · exact ⟨he, .inl rfl⟩
      · exact ⟨hmem, .inr hbelow⟩
    · intro hp
      obtain ⟨hmem, heq | hbelow⟩ := hp
      · exact .inl (Table.eq_of_mem hmem he heq)
      · exact .inr ⟨hmem, hbelow⟩

/-- The walks below the positions right below one make up the walk below that one: no position
is below two of them. -/
theorem walks_of_kids {e : PositionEntity} {walk : PositionRow → List PositionRow}
    (hacyclic : Acyclic t) (h : some r ≠ lowerId) (he : (r, e) ∈ t.rows)
    (hkids : ∀ k ∈ findAllByAboveId t r, Walks t lowerId false k.1
      (fun y => some k.1 ≠ lowerId ∧ Relation.ReflTransGen (Down t lowerId) k.1 y) (walk k)) :
    Walks t lowerId true r (Below t lowerId r) ((findAllByAboveId t r).flatMap walk) where
  returns found := by
    refine returns_succ.mp ?_
    simp only [deepFindLower, if_neg h, Table.findById_eq_some.mpr he, if_true]
    exact returns_foldlM_append (fun k hk => (hkids k hk).returns) found
  nodup := by
    rw [List.nodup_flatMap]
    have hrows : t.rows.Nodup := .of_map _ t.nodup
    refine ⟨fun k hk => (hkids k hk).nodup, (hrows.filter _).pairwise_of_forall_ne ?_⟩
    intro k hk k' hk' hne p hp hp'
    obtain ⟨-, hstart, hreach⟩ := ((hkids k hk).mem_iff p).mp hp
    obtain ⟨-, hstart', hreach'⟩ := ((hkids k' hk').mem_iff p).mp hp'
    obtain ⟨hmem, habove⟩ := mem_kidsOf.mp hk
    obtain ⟨hmem', habove'⟩ := mem_kidsOf.mp hk'
    have habove := (above_of_mem hmem).trans habove
    have habove' := (above_of_mem hmem').trans habove'
    rcases below_or_below hreach hreach' fun heq => hne (Table.eq_of_mem hmem hmem' heq) with
      hbelow | hbelow
    · exact not_below_sibling hacyclic ⟨habove, h, hstart⟩ habove' hbelow
    · exact not_below_sibling hacyclic ⟨habove', h, hstart'⟩ habove hbelow
  mem_iff p := by
    rw [List.mem_flatMap]
    constructor
    · intro hp
      obtain ⟨k, hk, hp⟩ := hp
      obtain ⟨hmem, hne, hreach⟩ := ((hkids k hk).mem_iff p).mp hp
      obtain ⟨hkmem, hkabove⟩ := mem_kidsOf.mp hk
      exact ⟨hmem, .head' ⟨(above_of_mem hkmem).trans hkabove, h, hne⟩ hreach⟩
    · intro hp
      obtain ⟨hmem, hbelow⟩ := hp
      obtain ⟨y, hdown, hreach⟩ := Relation.TransGen.head'_iff.mp hbelow
      obtain ⟨e', hy, habove⟩ := above_eq_some.mp hdown.1
      have hk : (y, e') ∈ findAllByAboveId t r := mem_kidsOf.mpr ⟨hy, habove⟩
      exact ⟨(y, e'), hk, ((hkids _ hk).mem_iff p).mpr ⟨hmem, hdown.2.2, hreach⟩⟩

theorem exists_walks_kid (hacyclic : Acyclic t) (hp : p ∈ t.rows)
    (hwalks : ∃ rows, Walks t lowerId true p.1 (Below t lowerId p.1) rows) :
    ∃ rows, Walks t lowerId false p.1
      (fun y => some p.1 ≠ lowerId ∧ Relation.ReflTransGen (Down t lowerId) p.1 y) rows := by
  by_cases h : some p.1 = lowerId
  · refine ⟨[], fun found => ?_, List.nodup_nil, fun q => by simp [h]⟩
    simpa using deepFindLower_of_eq h false found
  · obtain ⟨rows, hrows⟩ := hwalks
    have hfalse := walks_false hacyclic h hp hrows
    exact ⟨_, hfalse.returns, hfalse.nodup, fun q => by simpa [h] using hfalse.mem_iff q⟩

/-- Each step down goes to a position of lower rank. -/
theorem exists_walks (hacyclic : Acyclic t) (lowerId : Option Int) (hp : p ∈ t.rows) :
    ∃ rows, Walks t lowerId true p.1 (Below t lowerId p.1) rows := by
  have habove x y (h : above t y = some x) : x ∈ t.rows.filterMap fun p => p.2.aboveId := by
    obtain ⟨e, hmem, he⟩ := above_eq_some.mp h
    exact List.mem_filterMap.mpr ⟨(y, e), hmem, he⟩
  obtain ⟨rank, hrank, -⟩ := exists_rank (fun x y => above t y = some x) _ habove
    fun x hcycle => hacyclic x (Relation.transGen_swap.mp hcycle)
  induction hn : rank p.1 using Nat.strong_induction_on generalizing p with
  | h n ih =>
    by_cases h : some p.1 = lowerId
    · exact ⟨[], walks_of_eq h⟩
    · have hkids : ∀ k ∈ findAllByAboveId t p.1, ∃ rows, Walks t lowerId false k.1
          (fun y => some k.1 ≠ lowerId ∧ Relation.ReflTransGen (Down t lowerId) k.1 y) rows := by
        intro k hk
        obtain ⟨hmem, hkabove⟩ := mem_kidsOf.mp hk
        have hlower := hrank p.1 k.1 ((above_of_mem hmem).trans hkabove)
        exact exists_walks_kid hacyclic hmem (ih (rank k.1) (hn ▸ hlower) hmem rfl)
      choose! walk hwalk using hkids
      exact ⟨_, walks_of_kids hacyclic h hp hwalk⟩

/-! ## Several walks -/

/-- The position shows up in the list: it is listed itself, or one below it is. -/
def Shows (t : Table PositionEntity) (includingSelf : Bool) (lowerId : Option Int) (id : Int) : Prop :=
  includingSelf = true ∨ ∃ y, Down t lowerId id y

def shows (t : Table PositionEntity) (includingSelf : Bool) (lowerId : Option Int)
    (p : PositionRow) : Bool :=
  includingSelf ||
    some p.1 ≠ lowerId && (findAllByAboveId t p.1).any fun k => some k.1 ≠ lowerId

/-- No position that shows up is among the own ones twice, or below another of them. -/
structure Distinct (t : Table PositionEntity) (own : List PositionRow) (includingSelf : Bool)
    (lowerId : Option Int) : Prop where
  single : (own.filter (shows t includingSelf lowerId)).Nodup
  apart : ∀ p ∈ own, ∀ q ∈ own, shows t includingSelf lowerId q = true →
    ¬ Below t lowerId p.1 q.1

/-- What is listed for the own positions, each with a walk. -/
def listed (own : List PositionRow) (walk : PositionRow → List PositionRow)
    (includingSelf : Bool) : List PositionRow :=
  (if includingSelf then own else []) ++ own.flatMap walk

section Listed

variable {own : List PositionRow} {walk : PositionRow → List PositionRow} {includingSelf : Bool}

theorem shows_iff : shows t includingSelf lowerId p = true ↔
    Shows t includingSelf lowerId p.1 := by
  rw [Shows, shows, Bool.or_eq_true, Bool.and_eq_true, List.any_eq_true]
  refine or_congr_right ?_
  constructor
  · intro h
    obtain ⟨hp, k, hk, hne⟩ := h
    obtain ⟨hmem, habove⟩ := mem_kidsOf.mp hk
    exact ⟨k.1, (above_of_mem hmem).trans habove, of_decide_eq_true hp, of_decide_eq_true hne⟩
  · intro h
    obtain ⟨y, hdown⟩ := h
    obtain ⟨e, hmem, habove⟩ := above_eq_some.mp hdown.1
    exact ⟨decide_eq_true hdown.2.1, (y, e), mem_kidsOf.mpr ⟨hmem, habove⟩,
      decide_eq_true hdown.2.2⟩

theorem shows_of_below (h : Below t lowerId p.1 y) :
    shows t includingSelf lowerId p = true := by
  obtain ⟨z, hdown, -⟩ := Relation.TransGen.head'_iff.mp h
  exact shows_iff.mpr (.inr ⟨z, hdown⟩)

theorem mem_listed (hwalk : ∀ p ∈ own, Walks t lowerId true p.1 (Below t lowerId p.1) (walk p)) :
    q ∈ listed own walk includingSelf ↔ (includingSelf = true ∧ q ∈ own) ∨
      q ∈ t.rows ∧ ∃ p ∈ own, Below t lowerId p.1 q.1 := by
  rw [listed, List.mem_append, List.mem_flatMap]
  refine or_congr (by cases includingSelf <;> simp) ?_
  constructor
  · intro h
    obtain ⟨p, hp, hq⟩ := h
    obtain ⟨hmem, hbelow⟩ := ((hwalk p hp).mem_iff q).mp hq
    exact ⟨hmem, p, hp, hbelow⟩
  · intro h
    obtain ⟨hmem, p, hp, hbelow⟩ := h
    exact ⟨p, hp, ((hwalk p hp).mem_iff q).mpr ⟨hmem, hbelow⟩⟩

/-- If own positions are not listed themselves, the walk of one that shows up is not empty. -/
theorem exists_mem_walk (hp : p ∈ own)
    (hwalk : ∀ p ∈ own, Walks t lowerId true p.1 (Below t lowerId p.1) (walk p))
    (h : shows t false lowerId p = true) : ∃ k ∈ walk p, Down t lowerId p.1 k.1 := by
  obtain hself | ⟨y, hdown⟩ := shows_iff.mp h
  · cases hself
  · obtain ⟨e, hmem⟩ := exists_mem_of_down hdown
    exact ⟨(y, e), ((hwalk p hp).mem_iff _).mpr ⟨hmem, .single hdown⟩, hdown⟩

theorem distinct_of_nodup (hacyclic : Acyclic t) (hown : ∀ p ∈ own, p ∈ t.rows)
    (hwalk : ∀ p ∈ own, Walks t lowerId true p.1 (Below t lowerId p.1) (walk p))
    (h : (listed own walk includingSelf).Nodup) : Distinct t own includingSelf lowerId := by
  obtain ⟨hself, hwalks, hdisjoint⟩ := List.nodup_append.mp h
  have hpairs := (List.nodup_flatMap.mp hwalks).2
  cases includingSelf with
  | true =>
    refine ⟨hself.filter _, fun p hp q hq hshows hbelow => ?_⟩
    have hlisted : q ∈ own.flatMap walk :=
      List.mem_flatMap.mpr ⟨p, hp, ((hwalk p hp).mem_iff q).mpr ⟨hown q hq, hbelow⟩⟩
    exact hdisjoint q hq q hlisted rfl
  | false =>
    constructor
    · refine List.pairwise_filter.mpr (hpairs.imp_of_mem fun {p q} hp hq hdisjoint hshows _ heq => ?_)
      subst heq
      obtain ⟨k, hk, -⟩ := exists_mem_walk hp hwalk hshows
      exact hdisjoint hk hk
    · intro p hp q hq hshows hbelow
      obtain ⟨k, hk, hdown⟩ := exists_mem_walk hq hwalk hshows
      have hkp : k ∈ walk p := by
        have hmem := (((hwalk q hq).mem_iff k).mp hk).1
        exact ((hwalk p hp).mem_iff k).mpr ⟨hmem, .tail hbelow hdown⟩
      have hne : p ≠ q := fun heq => hbelow.ne hacyclic (congrArg Prod.fst heq)
      have : Std.Symm (Function.onFun List.Disjoint walk) := ⟨fun _ _ => List.Disjoint.symm⟩
      exact hpairs.forall hp hq hne hkp hk

theorem nodup_of_distinct (hown : ∀ p ∈ own, p ∈ t.rows)
    (hwalk : ∀ p ∈ own, Walks t lowerId true p.1 (Below t lowerId p.1) (walk p))
    (h : Distinct t own includingSelf lowerId) : (listed own walk includingSelf).Nodup := by
  refine List.nodup_append.mpr ⟨?_, List.nodup_flatMap.mpr ⟨fun p hp => (hwalk p hp).nodup, ?_⟩, ?_⟩
  · cases includingSelf with
    | false => exact List.nodup_nil
    | true =>
      have hsingle := h.single
      rwa [List.filter_eq_self.mpr fun p _ => shows_iff.mpr (.inl rfl)] at hsingle
  · -- two walks with a common position start one below the other
    refine (List.pairwise_filter.mp h.single).imp_of_mem fun {p q} hp hq hne k hk hk' => ?_
    have hbelow := (((hwalk p hp).mem_iff k).mp hk).2
    have hbelow' := (((hwalk q hq).mem_iff k).mp hk').2
    have hshows : shows t includingSelf lowerId p = true := shows_of_below hbelow
    have hshows' : shows t includingSelf lowerId q = true := shows_of_below hbelow'
    have hkeys : p.1 ≠ q.1 := fun heq =>
      hne hshows hshows' (Table.eq_of_mem (hown p hp) (hown q hq) heq)
    rcases below_or_below hbelow.to_reflTransGen hbelow'.to_reflTransGen hkeys with hpq | hqp
    · exact h.apart p hp q hq hshows' hpq
    · exact h.apart q hq p hp hshows hqp
  · intro q hq k hk heq
    subst heq
    cases includingSelf with
    | false => cases hq
    | true =>
      obtain ⟨p, hp, hmem⟩ := List.mem_flatMap.mp hk
      exact h.apart p hp q hq (shows_iff.mpr (.inl rfl)) (((hwalk p hp).mem_iff q).mp hmem).2

end Listed

/-! ## The whole list -/

/-- A row of the user names the position. -/
def HeldBy (s : PositionStore) (userId id : Int) : Prop :=
  ∃ q ∈ s.userPositions.rows, q.2.userId = userId ∧ q.2.positionId = some id

/-- The user's own positions, of the company of the position `lowerId` if that is given. -/
def Own (s : PositionStore) (userId : Int) (lowerId : Option Int) (id : Int) : Prop :=
  ∃ e, (id, e) ∈ s.positions.rows ∧ HeldBy s userId id ∧
    ∀ l lower, lowerId = some l → (l, lower) ∈ s.positions.rows → e.companyId = lower.companyId

/-- The list has no position twice, and has the own ones, if they are to be included, and those
below them. -/
structure ListsLower (s : PositionStore) (userId : Int) (includingSelf : Bool)
    (lowerId : Option Int) (ids : List Int) : Prop where
  once : ids.Nodup
  mem_iff : ∀ id, id ∈ ids ↔ (includingSelf = true ∧ Own s userId lowerId id) ∨
    ∃ o, Own s userId lowerId o ∧ Below s.positions lowerId o id

/-- The user's positions, of the company of the position `lowerId` if that company is stored. -/
def Fetched (s : PositionStore) (userId : Int) (lowerId : Option Int) (id : Int) : Prop :=
  ∃ e, (id, e) ∈ s.positions.rows ∧ HeldBy s userId id ∧
    ∀ company ∈ companyEntity s lowerId, e.companyId = company.1

/-- No position of the user that shows up is below another one, and none is named by two rows of
the user where these are joined. -/
structure Separate (s : PositionStore) (userId : Int) (includingSelf : Bool)
    (lowerId : Option Int) : Prop where
  single : (companyEntity s lowerId).isSome → ∀ id, Fetched s userId lowerId id →
    Shows s.positions includingSelf lowerId id → ∀ q ∈ s.userPositions.rows,
      ∀ q' ∈ s.userPositions.rows, q.2.userId = userId → q'.2.userId = userId →
        q.2.positionId = some id → q'.2.positionId = some id → q = q'
  apart : ∀ id id', Fetched s userId lowerId id → Fetched s userId lowerId id' →
    Shows s.positions includingSelf lowerId id' → ¬ Below s.positions lowerId id id'

/-- What `findAll` takes for the user's own positions. -/
def ownEntities (s : PositionStore) (userId : Int) (lowerId : Option Int) : List PositionRow :=
  positionEntities s userId (companyEntity s lowerId)

section Own

variable {s : PositionStore} {userId companyId id : Int} {includingSelf : Bool}

theorem heldBy_iff : HeldBy s userId id ↔
    ∃ q ∈ UserServiceImpl.findAllByUserId s.userPositions (some userId),
      q.2.positionId = some id := by
  refine exists_congr fun q => ?_
  rw [UserServiceImpl.mem_findAllByUserId, Option.some_inj, and_assoc]

theorem mem_findAllByUserPosition : p ∈ findAllByUserPosition s userId ↔
    p ∈ s.positions.rows ∧ HeldBy s userId p.1 := by
  rw [heldBy_iff, findAllByUserPosition, List.mem_filter, List.contains_iff_mem, List.mem_map]

theorem mem_findAllByCompanyIdAndUserPosition :
    p ∈ findAllByCompanyIdAndUserPosition s companyId userId ↔
      p ∈ s.positions.rows ∧ p.2.companyId = companyId ∧ HeldBy s userId p.1 := by
  rw [heldBy_iff, findAllByCompanyIdAndUserPosition, List.mem_flatMap]
  constructor
  · intro h
    obtain ⟨p', hp', hp⟩ := h
    obtain ⟨q, hq, rfl⟩ := List.mem_map.mp hp
    obtain ⟨hmem, hcompany⟩ := List.mem_filter.mp hp'
    obtain ⟨hq, hheld⟩ := List.mem_filter.mp hq
    exact ⟨hmem, of_decide_eq_true hcompany, q, hq, of_decide_eq_true hheld⟩
  · intro h
    obtain ⟨hmem, hcompany, q, hq, hheld⟩ := h
    exact ⟨p, List.mem_filter.mpr ⟨hmem, decide_eq_true hcompany⟩,
      List.mem_map.mpr ⟨q, List.mem_filter.mpr ⟨hq, decide_eq_true hheld⟩, rfl⟩⟩

theorem companyEntity_eq_some {company : Int × CompanyEntity}
    (h : companyEntity s lowerId = some company) :
    ∃ l lower, lowerId = some l ∧ (l, lower) ∈ s.positions.rows ∧ lower.companyId = company.1 := by
  obtain ⟨l, hl, h⟩ := Option.bind_eq_some_iff.mp h
  obtain ⟨lower, hlower, h⟩ := Option.bind_eq_some_iff.mp h
  obtain ⟨entity, -, h⟩ := Option.bind_eq_some_iff.mp h
  cases h
  exact ⟨l, lower, hl, Table.findById_eq_some.mp hlower, rfl⟩

theorem mem_ownEntities : p ∈ ownEntities s userId lowerId ↔ p ∈ s.positions.rows ∧
    HeldBy s userId p.1 ∧ ∀ company ∈ companyEntity s lowerId, p.2.companyId = company.1 := by
  unfold ownEntities positionEntities
  cases hcompany : companyEntity s lowerId with
  | none => simp [mem_findAllByUserPosition]
  | some company => simp [mem_findAllByCompanyIdAndUserPosition, and_comm]

theorem mem_of_ownEntities (h : p ∈ ownEntities s userId lowerId) : p ∈ s.positions.rows :=
  (mem_ownEntities.mp h).1

theorem exists_mem_ownEntities :
    (∃ e, (id, e) ∈ ownEntities s userId lowerId) ↔ Fetched s userId lowerId id :=
  exists_congr fun _ => mem_ownEntities

theorem fetched_of_mem (h : p ∈ ownEntities s userId lowerId) : Fetched s userId lowerId p.1 :=
  exists_mem_ownEntities.mp ⟨p.2, h⟩

/-- What the user is to be shown is fetched. -/
theorem Own.fetched (h : Own s userId lowerId id) : Fetched s userId lowerId id := by
  obtain ⟨e, hmem, hheld, hcompany⟩ := h
  refine ⟨e, hmem, hheld, fun company hsome => ?_⟩
  obtain ⟨l, lower, hl, hlower, heq⟩ := companyEntity_eq_some hsome
  exact (hcompany l lower hl hlower).trans heq

theorem mem_ownEntities_of_own (h : Own s userId lowerId id) :
    ∃ e, (id, e) ∈ ownEntities s userId lowerId :=
  exists_mem_ownEntities.mpr h.fetched

/-- The join has a position once exactly if one row of the user names it. -/
theorem nodup_join (f : PositionRow → Bool) :
    ((findAllByCompanyIdAndUserPosition s companyId userId).filter f).Nodup ↔
      ∀ p ∈ s.positions.rows, p.2.companyId = companyId → f p = true →
        ∀ q ∈ s.userPositions.rows, ∀ q' ∈ s.userPositions.rows, q.2.userId = userId →
          q'.2.userId = userId → q.2.positionId = some p.1 → q'.2.positionId = some p.1 → q = q' := by
  have hnaming p q : q ∈ (UserServiceImpl.findAllByUserId s.userPositions (some userId)).filter
        (fun q => q.2.positionId = some p) ↔
      q ∈ s.userPositions.rows ∧ q.2.userId = userId ∧ q.2.positionId = some p := by
    rw [List.mem_filter, UserServiceImpl.mem_findAllByUserId, decide_eq_true_eq, Option.some_inj,
      and_assoc]
  rw [findAllByCompanyIdAndUserPosition, List.filter_flatMap, List.nodup_flatMap]
  constructor
  · intro h p hp hcompany hf q hq q' hq' huser huser' hname hname'
    by_contra hne
    have hpairs := h.1 p (List.mem_filter.mpr ⟨hp, decide_eq_true hcompany⟩)
    rw [List.filter_map, List.Nodup, List.pairwise_map] at hpairs
    have : Std.Symm fun _ _ : UserServiceImpl.UserPositionRow => p ≠ p := ⟨fun _ _ h => h⟩
    have hmem := (List.mem_filter (p := f ∘ fun _ => p)).mpr ⟨(hnaming p.1 q).mpr ⟨hq, huser, hname⟩, hf⟩
    have hmem' := (List.mem_filter (p := f ∘ fun _ => p)).mpr ⟨(hnaming p.1 q').mpr ⟨hq', huser', hname'⟩, hf⟩
    exact hpairs.forall hmem hmem' hne rfl
  · intro h
    have hrows : s.positions.rows.Nodup := .of_map _ s.positions.nodup
    have hheld : s.userPositions.rows.Nodup := .of_map _ s.userPositions.nodup
    constructor
    · intro p hp
      obtain ⟨hmem, hcompany⟩ := List.mem_filter.mp hp
      rw [List.filter_map, List.Nodup, List.pairwise_map]
      refine (((hheld.filter _).filter _).filter _).pairwise_of_forall_ne fun q hq q' hq' hne _ => ?_
      obtain ⟨hq, hf⟩ := List.mem_filter.mp hq
      obtain ⟨hq', -⟩ := List.mem_filter.mp hq'
      obtain ⟨hq, huser, hname⟩ := (hnaming p.1 q).mp hq
      obtain ⟨hq', huser', hname'⟩ := (hnaming p.1 q').mp hq'
      exact hne (h p hmem (of_decide_eq_true hcompany) hf q hq q' hq' huser huser' hname hname')
    · refine (hrows.filter _).pairwise_of_forall_ne fun p _ p' _ hne k hk hk' => hne ?_
      obtain ⟨-, -, rfl⟩ := List.mem_map.mp (List.mem_of_mem_filter hk)
      obtain ⟨-, -, rfl⟩ := List.mem_map.mp (List.mem_of_mem_filter hk')
      rfl

theorem nodup_ownEntities_filter (f : PositionRow → Bool) :
    ((ownEntities s userId lowerId).filter f).Nodup ↔ ((companyEntity s lowerId).isSome →
      ∀ p ∈ ownEntities s userId lowerId, f p = true →
        ∀ q ∈ s.userPositions.rows, ∀ q' ∈ s.userPositions.rows, q.2.userId = userId →
          q'.2.userId = userId → q.2.positionId = some p.1 → q'.2.positionId = some p.1 → q = q') := by
  unfold ownEntities positionEntities
  cases companyEntity s lowerId with
  | none =>
    have hrows : s.positions.rows.Nodup := .of_map _ s.positions.nodup
    refine iff_of_true ((hrows.filter _).filter _) fun h => ?_
    cases h
  | some company =>
    dsimp only
    rw [nodup_join]
    constructor
    · intro h _ p hp
      obtain ⟨hmem, hcompany, -⟩ := mem_findAllByCompanyIdAndUserPosition.mp hp
      exact h p hmem hcompany
    · intro h p hp hcompany hf q hq q' hq' huser huser' hname
      have hheld : HeldBy s userId p.1 := ⟨q, hq, huser, hname⟩
      exact h rfl p (mem_findAllByCompanyIdAndUserPosition.mpr ⟨hp, hcompany, hheld⟩) hf q hq q' hq'
        huser huser' hname

/-- What is fetched is distinct exactly if the user's positions are separate. -/
theorem distinct_iff_separate :
    Distinct s.positions (ownEntities s userId lowerId) includingSelf lowerId ↔
      Separate s userId includingSelf lowerId := by
  constructor
  · intro h
    refine ⟨fun hcompany id hfetched hshows => ?_, fun id id' hfetched hfetched' hshows => ?_⟩
    · obtain ⟨e, hmem⟩ := exists_mem_ownEntities.mpr hfetched
      exact (nodup_ownEntities_filter _).mp h.single hcompany (id, e) hmem (shows_iff.mpr hshows)
    · obtain ⟨e, hmem⟩ := exists_mem_ownEntities.mpr hfetched
      obtain ⟨e', hmem'⟩ := exists_mem_ownEntities.mpr hfetched'
      exact h.apart (id, e) hmem (id', e') hmem' (shows_iff.mpr hshows)
  · intro h
    refine ⟨(nodup_ownEntities_filter _).mpr fun hcompany p hp hshows => ?_, fun p hp q hq hshows => ?_⟩
    · exact h.single hcompany p.1 (fetched_of_mem hp) (shows_iff.mp hshows)
    · exact h.apart p.1 q.1 (fetched_of_mem hp) (fetched_of_mem hq) (shows_iff.mp hshows)

/-- What is listed and what is to be listed for a position. -/
theorem mem_keys_listed {walk : PositionRow → List PositionRow}
    (hwalk : ∀ p ∈ ownEntities s userId lowerId,
      Walks s.positions lowerId true p.1 (Below s.positions lowerId p.1) (walk p)) :
    id ∈ (listed (ownEntities s userId lowerId) walk includingSelf).map Prod.fst ↔
      (includingSelf = true ∧ ∃ e, (id, e) ∈ ownEntities s userId lowerId) ∨
        ∃ p ∈ ownEntities s userId lowerId, Below s.positions lowerId p.1 id := by
  rw [List.mem_map]
  constructor
  · intro h
    obtain ⟨q, hq, rfl⟩ := h
    rcases (mem_listed hwalk).mp hq with ⟨hself, hown⟩ | ⟨-, hbelow⟩
    · exact .inl ⟨hself, q.2, hown⟩
    · exact .inr hbelow
  · intro h
    rcases h with ⟨hself, e, hown⟩ | ⟨p, hp, hbelow⟩
    · exact ⟨(id, e), (mem_listed hwalk).mpr (.inl ⟨hself, hown⟩), rfl⟩
    · obtain ⟨e, hmem⟩ := exists_mem_of_below hbelow
      exact ⟨(id, e), (mem_listed hwalk).mpr (.inr ⟨hmem, p, hp, hbelow⟩), rfl⟩

/-- Where the list is right, an own position that shows up is of the company asked for: what shows
up for it would be listed a second time otherwise. -/
theorem own_of_listsLower {ids : List Int}
    (hids : ∀ id, id ∈ ids ↔ (includingSelf = true ∧ ∃ e, (id, e) ∈ ownEntities s userId lowerId) ∨
      ∃ p ∈ ownEntities s userId lowerId, Below s.positions lowerId p.1 id)
    (h : ListsLower s userId includingSelf lowerId ids)
    (hdistinct : Distinct s.positions (ownEntities s userId lowerId) includingSelf lowerId)
    (hp : p ∈ ownEntities s userId lowerId)
    (hshows : shows s.positions includingSelf lowerId p = true) : Own s userId lowerId p.1 := by
  by_contra hnot
  rcases shows_iff.mp hshows with hself | ⟨y, hdown⟩
  · rcases (h.mem_iff p.1).mp ((hids p.1).mpr (.inl ⟨hself, p.2, hp⟩)) with ⟨-, hown⟩ | ⟨o, ho, hop⟩
    · exact hnot hown
    · obtain ⟨e, he⟩ := mem_ownEntities_of_own ho
      exact hdistinct.apart (o, e) he p hp hshows hop
  · rcases (h.mem_iff y).mp ((hids y).mpr (.inr ⟨p, hp, .single hdown⟩)) with
      ⟨hself, hown⟩ | ⟨o, ho, hoy⟩
    · obtain ⟨e, he⟩ := mem_ownEntities_of_own hown
      exact hdistinct.apart p hp (y, e) he (shows_iff.mpr (.inl hself)) (.single hdown)
    · obtain ⟨e, he⟩ := mem_ownEntities_of_own ho
      have hne : o ≠ p.1 := fun heq => hnot (heq ▸ ho)
      rcases below_or_below hoy.to_reflTransGen (.single hdown) hne with hop | hpo
      · exact hdistinct.apart (o, e) he p hp hshows hop
      · exact hdistinct.apart p hp (o, e) he (shows_of_below hoy) hpo

theorem nodup_keys_listed_iff {walk : PositionRow → List PositionRow} (hacyclic : Acyclic s.positions)
    (hwalk : ∀ p ∈ ownEntities s userId lowerId,
      Walks s.positions lowerId true p.1 (Below s.positions lowerId p.1) (walk p)) :
    ((listed (ownEntities s userId lowerId) walk includingSelf).map Prod.fst).Nodup ↔
      Distinct s.positions (ownEntities s userId lowerId) includingSelf lowerId := by
  constructor
  · exact fun h => distinct_of_nodup hacyclic (fun p => mem_of_ownEntities) hwalk h.of_map
  · intro h
    have hrows : ∀ p ∈ listed (ownEntities s userId lowerId) walk includingSelf,
        p ∈ s.positions.rows := by
      intro p hp
      rcases (mem_listed hwalk).mp hp with ⟨-, hown⟩ | ⟨hmem, -⟩
      · exact mem_of_ownEntities hown
      · exact hmem
    refine (nodup_of_distinct (fun p => mem_of_ownEntities) hwalk h).map_on ?_
    exact fun p hp q hq heq => Table.eq_of_mem (hrows p hp) (hrows q hq) heq

theorem listsLower_iff {walk : PositionRow → List PositionRow} (hacyclic : Acyclic s.positions)
    (hwalk : ∀ p ∈ ownEntities s userId lowerId,
      Walks s.positions lowerId true p.1 (Below s.positions lowerId p.1) (walk p)) :
    ListsLower s userId includingSelf lowerId
        ((listed (ownEntities s userId lowerId) walk includingSelf).map Prod.fst) ↔
      Distinct s.positions (ownEntities s userId lowerId) includingSelf lowerId ∧
        ∀ p ∈ ownEntities s userId lowerId,
          shows s.positions includingSelf lowerId p = true → Own s userId lowerId p.1 := by
  have hids := fun id => @mem_keys_listed lowerId s userId id includingSelf walk hwalk
  constructor
  · intro h
    have hdistinct := (nodup_keys_listed_iff hacyclic hwalk).mp h.once
    exact ⟨hdistinct, fun p hp => own_of_listsLower hids h hdistinct hp⟩
  · intro h
    obtain ⟨hdistinct, hown⟩ := h
    refine ⟨(nodup_keys_listed_iff hacyclic hwalk).mpr hdistinct, fun id => ?_⟩
    rw [hids]
    constructor
    · intro hlisted
      rcases hlisted with ⟨hself, e, he⟩ | ⟨p, hp, hbelow⟩
      · exact .inl ⟨hself, hown (id, e) he (shows_iff.mpr (.inl hself))⟩
      · exact .inr ⟨p.1, hown p hp (shows_of_below hbelow), hbelow⟩
    · intro hright
      rcases hright with ⟨hself, hid⟩ | ⟨o, ho, hbelow⟩
      · exact .inl ⟨hself, mem_ownEntities_of_own hid⟩
      · obtain ⟨e, he⟩ := mem_ownEntities_of_own ho
        exact .inr ⟨(o, e), he, hbelow⟩

theorem returns_findAllOfUser (includingSelf : Bool) {walk : PositionRow → List PositionRow}
    (hwalk : ∀ p ∈ ownEntities s userId lowerId,
      Walks s.positions lowerId true p.1 (Below s.positions lowerId p.1) (walk p)) :
    ∃ result, Returns (fun depth => findAllOfUser s depth userId includingSelf lowerId) result ∧
      result.map (·.id) = (listed (ownEntities s userId lowerId) walk includingSelf).map Prod.fst := by
  refine ⟨_, (returns_foldlM_append (fun p hp => (hwalk p hp).returns) _).bind (returns_pure _), ?_⟩
  rw [List.map_map]
  rfl

theorem positionIdMap_ok {all : List PositionDTO} :
    (∃ map, UserServiceImpl.positionIdMap all = .ok map) ↔ (all.map (·.id)).Nodup := by
  have hkeys : (all.map fun p => (p.id, p.name)).map Prod.fst = all.map (·.id) := by
    rw [List.map_map]
    rfl
  rw [UserServiceImpl.positionIdMap, UserServiceImpl.toMap, hkeys]
  by_cases h : (all.map (·.id)).Nodup
  · simp [h]
  · simp [h]

/-- `findAll` lists what it is to list exactly if the user's positions are separate and all that
show up are of the company asked for. The first is when the map of positions has no key twice. -/
theorem findAll_iff (hacyclic : Acyclic s.positions) (accessCard : AccessCard) (user : Lib.Java.JLong)
    (huser : accessCard.userId = some user) (hne : user ≠ 0) (includingSelf : Bool)
    (lowerId : Option Int) :
    ∃ result, (∃ n, ∀ depth, n ≤ depth →
        findAll s depth accessCard includingSelf lowerId = .ok result) ∧
      (ListsLower s user.toInt includingSelf lowerId (result.map (·.id)) ↔
        Separate s user.toInt includingSelf lowerId ∧
        ∀ id, Fetched s user.toInt lowerId id → Shows s.positions includingSelf lowerId id →
          Own s user.toInt lowerId id) ∧
      ((∃ map, UserServiceImpl.positionIdMap result = .ok map) ↔
        Separate s user.toInt includingSelf lowerId) := by
  have hwalks : ∀ p ∈ ownEntities s user.toInt lowerId, ∃ rows,
      Walks s.positions lowerId true p.1 (Below s.positions lowerId p.1) rows :=
    fun p hp => exists_walks hacyclic lowerId (mem_of_ownEntities hp)
  choose! walk hwalk using hwalks
  obtain ⟨result, hreturns, hids⟩ := returns_findAllOfUser includingSelf hwalk
  refine ⟨result, ?_, ?_, ?_⟩
  · obtain ⟨n, hn⟩ := hreturns
    refine ⟨n, fun depth hdepth => ?_⟩
    rw [findAll, huser]
    dsimp only
    rw [if_neg hne]
    exact hn depth hdepth
  · rw [hids, listsLower_iff hacyclic hwalk, distinct_iff_separate]
    refine and_congr_right fun _ => ?_
    constructor
    · intro h id hfetched hshows
      obtain ⟨e, hmem⟩ := exists_mem_ownEntities.mpr hfetched
      exact h (id, e) hmem (shows_iff.mpr hshows)
    · exact fun h p hp hshows => h p.1 (fetched_of_mem hp) (shows_iff.mp hshows)
  · rw [positionIdMap_ok, hids, nodup_keys_listed_iff hacyclic hwalk, distinct_iff_separate]

end Own

/-- Positions below those with smaller ids are not in a circle. -/
theorem acyclic_of_lt (h : ∀ p ∈ t.rows, ∀ a ∈ p.2.aboveId, a < p.1) : Acyclic t := by
  intro id hcycle
  have hlt : ∀ x y, above t x = some y → y < x := by
    intro x y habove
    obtain ⟨e, hmem, he⟩ := above_eq_some.mp habove
    exact h (x, e) hmem y he
  have hgt := Relation.TransGen.mono hlt id id hcycle
  rw [Relation.transGen_eq_self] at hgt
  exact lt_irrefl id hgt

/-- A user with two positions, one right below the other. -/
def overlapping : PositionStore where
  positions := Table.empty.insertAll [⟨"top", none, 1⟩, ⟨"low", some 1, 1⟩]
  companies := Table.empty.insert ⟨"c", none, "client"⟩
  userPositions := Table.empty.insertAll [⟨5, some 1, none⟩, ⟨5, some 2, none⟩]

/-- Both positions are listed once where the lower one is the end of each walk. -/
theorem findAll_iff_overlapping :
    ∃ result, (∃ n, ∀ depth, n ≤ depth →
        findAll overlapping depth { userId := some 5 } true (some 2) = .ok result) ∧
      result.map (·.id) = [1, 2] ∧ ListsLower overlapping 5 true (some 2) [1, 2] ∧
      Separate overlapping 5 true (some 2) := by
  obtain ⟨result, ⟨n, hn⟩, hlists, hmap⟩ := findAll_iff (s := overlapping)
    (acyclic_of_lt (by decide)) { userId := some 5 } 5 rfl (by decide) true (some 2)
  have hresult : findAll overlapping (n + 3) { userId := some 5 } true (some 2) =
      .ok [⟨1, 1, none, "c:top"⟩, ⟨2, 1, some 1, "c:low"⟩] := rfl
  cases hresult.symm.trans (hn (n + 3) (Nat.le_add_right n 3))
  have hseparate := hmap.mp ⟨_, rfl⟩
  refine ⟨_, ⟨n, hn⟩, rfl, hlists.mpr ⟨hseparate, ?_⟩, hseparate⟩
  rintro id ⟨e, hrow, hheld, -⟩ -
  have hcompany : ∀ p ∈ overlapping.positions.rows, p.2.companyId = 1 := by decide
  exact ⟨e, hrow, hheld, fun l lower _ hlower =>
    (hcompany _ hrow).trans (hcompany _ hlower).symm⟩

/-- The lower position is listed as an own one and as one below an own one. -/
theorem not_findAll : ¬ ∀ s : PositionStore, Acyclic s.positions →
    ∀ (accessCard : AccessCard) (user : Lib.Java.JLong), accessCard.userId = some user → user ≠ 0 →
    ∀ (includingSelf : Bool) (lowerId : Option Int),
      (∀ l ∈ lowerId, (s.positions.findById l).isSome) →
      ∃ result, (∃ n, ∀ depth, n ≤ depth →
          findAll s depth accessCard includingSelf lowerId = .ok result) ∧
        ListsLower s user.toInt includingSelf lowerId (result.map (·.id)) ∧
        ∃ map, UserServiceImpl.positionIdMap result = .ok map := by
  intro h
  obtain ⟨result, ⟨n, hn⟩, hlists, -⟩ := h overlapping (acyclic_of_lt (by decide))
    { userId := some 5 } 5 rfl (by decide) true none (by simp)
  have hresult : findAll overlapping (n + 3) { userId := some 5 } true none =
      .ok [⟨1, 1, none, "c:top"⟩, ⟨2, 1, some 1, "c:low"⟩, ⟨2, 1, some 1, "c:low"⟩] := rfl
  cases hresult.symm.trans (hn (n + 3) (Nat.le_add_right n 3))
  exact absurd hlists.once (by decide)

end BigPlan.Auth.PositionServiceImpl
