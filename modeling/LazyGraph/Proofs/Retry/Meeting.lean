import LazyGraph.Proofs.Retry.Excursions

/-! A call and its repetition meet.

The repetition follows the call to where the call was left, unless a limit stops it before. On
the way it skips the thunks that were finished, which the call has to evaluate. -/

set_option autoImplicit false

namespace LazyGraph.Machine

variable {σ : Type} {start base : Heap} {known inside inside' held : Handle → Prop} {names pairs ties : Pairing}
  {evaluator evaluator' : Evaluator} {control control' next last : Control}
  {left right entered between after final : State σ} {count later : Nat} {root node result : Handle} {links : List Handle}
  {expr : Expr} {env : Env} {value : Node}

structure Overtakes (start base : Heap) (names : Pairing) (evaluator evaluator' : Evaluator) (known inside held : Handle → Prop)
    (pairs : Pairing) (last : Control) (final left right : State σ) (links : List Handle) (node result : Handle) (value : Node)
    (inside' : Handle → Prop) (later : Nat) (between : State σ) : Prop where
  trail : Trail start evaluator last final later (.deliver (.stored result value)) between
  contained : ∃ ties, Contained known ties (.deliver (.stored result value)) between
  stack : between.stack.items = redirection links ++ left.stack.items
  wider : ∀ handle, inside handle → inside' handle
  isInside : inside' result
  written : node = result ∨ between.world.heap.LinksTo node result
  still : ∀ link ∈ links, between.world.heap.lookup link = left.world.heap.lookup link
  heaps : base.Retraces names evaluator.actor evaluator'.actor known inside' held (pairs.joining names inside') between.world.heap
    right.world.heap

theorem updatePayload_written {whnf : Whnf} {before after : Heap} {old : Slot}
    (rewrites : before.Rewrites after node old ⟨.evaluated, (updatePayload node whnf).1⟩) :
    node = (updatePayload node whnf).2 ∨ after.LinksTo node (updatePayload node whnf).2 := by
  have written : after.lookup node = .ok ⟨.evaluated, (updatePayload node whnf).1⟩ := by
    rw [rewrites.lookup, if_pos rfl]
  obtain ⟨place, content⟩ := whnf
  cases place with
  | none => exact .inl rfl
  | some existing =>
    by_cases elsewhere : existing ≠ node ∧ content.tag.isScalar = false
    · simp only [updatePayload, if_pos elsewhere] at written ⊢
      exact .inr ⟨_, written⟩
    · simp only [updatePayload, if_neg elsewhere, true_or]

/-- A thunk inside is evaluated, if it is finished when the call is left. -/
theorem Retreads.overtakes
    (retreads : Retreads base names evaluator evaluator' known inside held pairs (.force root) control' left right)
    (twins : (leftover evaluator final).Twins Eq known names base)
    (found : Discovers left.world.heap [] root links node expr env)
    (claims : Claims evaluator.actor left.world.heap entered.world.heap node expr env)
    (stack : entered.stack.items = .update node :: redirection links ++ left.stack.items)
    (bounded : entered.world.heap.maxNodes = left.world.heap.maxNodes)
    (trail : Trail start evaluator last final count (.eval expr env) entered)
    (contained : Contained known ties (.eval expr env) entered) (isInside : inside node)
    (finished : ∀ slotState expr env, (leftover evaluator final).lookup node ≠ .ok ⟨slotState, .thunk expr env⟩) :
    ∃ result value inside' later between, later < count ∧
      Overtakes start base names evaluator evaluator' known inside held pairs last final left right links node result value inside' later
        between := by
  have retraces := retreads.abreast.heaps
  have unclaimed := found.live
  obtain ⟨early, later, whnf, middle, middle', between, expr', env', rfl, standing, standing', heap', stepped, rewrites, stack',
    onward⟩ := trail.excursion contained stack finished
  have fits' : between.world.heap.Addressable :=
    onward.fits.mono (iterations_grows (@mute_keeps σ Heap.Advances _) onward.standing)
  have grows := iterate_grows (@mute_keeps σ Heap.Advances _) evaluator (.deliver whnf) middle
  rw [stepped] at grows
  have fits : middle.world.heap.Addressable := fits'.mono grows
  have thunk := retraces.closed isInside unclaimed
  have walled : entered.world.heap.Walled known inside := retraces.walled.rewrites claims bounded thunk
  obtain ⟨code, bound⟩ : expr.Sealed known ∧ ∀ handle ∈ env, inside handle := by
    cases thunk with
    | thunk code each => exact ⟨code, fun handle member => (List.forall₂_same.mp each handle member).1⟩
  obtain ⟨inside', wider, fresh, unchanged, walled', values⟩ :=
    @iterations_walled _ _ _ _ { entered with stack := .empty } _ _ _ _ _ walled trail.unawaited rfl code bound standing'
      (heap' ▸ fits)
  rw [heap'] at unchanged walled'
  have both : Pairing.within inside' node node := ⟨wider node isInside, rfl⟩
  obtain ⟨payloads, results⟩ := updatePayload_alike (Pairing.within_exactly inside') both values
  have bounded' : between.world.heap.maxNodes = middle.world.heap.maxNodes := Retreads.maxNodes_step stepped
  have walled'' := walled'.rewrites rewrites bounded' payloads
  have apart : ∀ link ∈ links, link ≠ node := by
    rintro link member rfl
    obtain ⟨_, _, linked⟩ := (Heap.follow_route found).linksTo member
    cases unclaimed.symm.trans linked
  obtain ⟨ties', _, contained'⟩ := contained.iterations (.of_fits mute_keeps standing fits) standing
  obtain ⟨ties'', _, contained''⟩ := contained'.step stepped fits'
  refine ⟨_, _, inside', later, between, by omega, onward, ⟨ties'', contained''⟩, stack', wider, results.1, updatePayload_written rewrites,
    fun link member => ?_, ?_⟩
  · -- the thunk stays unfinished to the end of the excursion, and so what leads to it is not touched
    have excursion : Trail start evaluator (.deliver whnf) middle early (.eval expr env) entered :=
      { trail with standing := standing, fits := fits, awake := by simp }
    have claimed : ∀ link ∈ links, entered.world.heap.lookup link = left.world.heap.lookup link := by
      intro link member
      rw [Heap.Rewrites.lookup claims, if_neg (apart link member)]
    have route := (Heap.follow_route found).mono claimed
    have live : entered.world.heap.Live node := (Heap.Rewrites.live_iff claims node).mpr ⟨_, unclaimed⟩
    rw [rewrites.lookup, if_neg (apart link member), excursion.pending rewrites.found live route link member, claimed link member]
  · refine retraces.skips twins (fun isInside => wider _ isInside) (fun {handle} isInside => ?_) (fun {handle} alive outside => ?_)
      walled''.free walled''.unbounded walled''.issued walled''.closed
    · exact (fresh handle isInside).imp_right fun dead alive => dead ((Heap.Rewrites.live_iff claims handle).mpr alive)
    · have other : handle ≠ node := fun same => outside (same ▸ isInside)
      rw [rewrites.lookup, if_neg other]
      refine (unchanged handle ((Heap.Rewrites.live_iff claims handle).mpr alive) outside).trans ?_
      rw [Heap.Rewrites.lookup claims, if_neg other]

/-- The repetition finds the value at the end of the chain, once the call has collapsed it. -/
theorem Overtakes.lands {root' : Handle} (overtakes : Overtakes start base names evaluator evaluator' known inside held pairs last final
      left right links node result value inside' later between)
    (retreads : Retreads base names evaluator evaluator' known inside held pairs (.force root) (.force root') left right)
    (twins : (leftover evaluator final).Twins Eq known names base) (regular : base.Regular)
    (found : Discovers left.world.heap [] root links node expr env) (isInside : inside node)
    (heap : after.world.heap = between.world.heap.pointAll links result) (stack : after.stack.items = left.stack.items)
    (trail : Trail start evaluator last final count (.deliver (.stored result value)) after)
    (fits' : Fits (iterate mute evaluator' (.force root') right)) :
    KeepsUp base names evaluator evaluator' known (.force root') right (.deliver (.stored result value)) after := by
  have retraces := retreads.abreast.heaps
  obtain ⟨isWhnf, stored⟩ := overtakes.trail.poised.sound
  cases retreads.controls with
  | force both =>
    obtain ⟨copies, copies', rest, entry, entry', rfl, each, way, entries, onward, ends⟩ :=
      retraces.route both (Heap.follow_route found)
    have old : ¬ base.Offers entry' := by
      intro copy
      obtain rfl := ends copy
      cases onward
      exact retraces.copy_outside entries copy isInside
    obtain ⟨_, inner⟩ := retraces.route_inside (retraces.old entries old).2 onward
    have leads : entry = result ∨ (leftover evaluator final).LinksTo entry result := by
      cases onward with
      | here =>
        refine overtakes.written.imp_right fun linked => ?_
        obtain ⟨state, linked⟩ := linked
        exact ⟨state, overtakes.trail.left_direct linked (stored _ rfl) isWhnf⟩
      | @link _ _ passed linked _ =>
        obtain ⟨state, linked⟩ := linked
        have member : entry ∈ copies ++ entry :: passed := List.mem_append_right _ (.head _)
        refine .inr ⟨state, trail.left_direct ?_ (trail.poised.sound.2 _ rfl) isWhnf⟩
        rw [heap, Heap.lookup_pointAll, if_pos member, overtakes.still entry member, linked]
        rfl
    have landing := overtakes.heaps.arrives twins regular (each.imp fun _ _ both => ⟨.inl both.1, both.2⟩) way (.inl entries)
      (stored _ rfl) isWhnf (fun copy => absurd copy old)
      fun _ => ⟨fun link member => overtakes.wider link (inner link member), overtakes.isInside,
        overtakes.trail.left_value (stored _ rfl) isWhnf, leads⟩
    rw [← heap] at landing
    exact retreads.lands regular (fun _ _ => .inl) stack landing fits'

theorem Trail.collapse {link : Handle} {below : List Frame}
    (trail : Trail start evaluator last final (count + 1) (.deliver (.stored result value)) between)
    (stack : between.stack.items = .redirect (link :: links) :: below) :
    ∃ after, iterate mute evaluator (.deliver (.stored result value)) between =
        .ok (.continues (.deliver (.stored result value))) after ∧
      after.world.heap = between.world.heap.pointAll (link :: links) result ∧ after.stack.items = below ∧
      Trail start evaluator last final count (.deliver (.stored result value)) after := by
  obtain ⟨next, after, stepped, deed, rest⟩ := trail.step
  generalize acts : Control.deliver (.stored result value) = action at stepped deed
  cases deed with
  | works quiet _ _ _ =>
    subst acts
    rw [stack] at quiet
    cases quiet
  | completes top _ _ => cases top.symm.trans stack
  | collapses top _ heap stack' =>
    cases acts
    cases top.symm.trans stack
    exact ⟨after, stepped, heap, stack', rest⟩
  | claims | arrives | blocks => cases acts

/-- The call is left between finishing a thunk and collapsing the chain that led to it. -/
def Dangles (start base : Heap) (names : Pairing) (evaluator evaluator' : Evaluator) (known inside held : Handle → Prop)
    (pairs : Pairing) (last : Control) (final : State σ) (control : Control) (left right : State σ) : Prop :=
  ∃ root links node expr env result value inside', control = .force root ∧ links ≠ [] ∧
    Discovers left.world.heap [] root links node expr env ∧ last = .deliver (.stored result value) ∧
    Overtakes start base names evaluator evaluator' known inside held pairs last final left right links node result value inside' 0 final

/-- The repetition keeps up with the call to its next step, or to where it has caught up with the repetition. -/
theorem Retreads.advances
    (retreads : Retreads base names evaluator evaluator' known inside held pairs control control' left right)
    (twins : (leftover evaluator final).Twins Eq known names base) (regular : base.Regular)
    (trail : Trail start evaluator last final (count + 1) control left) (contained : Contained known ties control left)
    (fits' : Fits (iterate mute evaluator' control' right)) :
    (∃ later next after ties, later ≤ count ∧ Trail start evaluator last final later next after ∧ Contained known ties next after ∧
      KeepsUp base names evaluator evaluator' known control' right next after) ∨
    Dangles start base names evaluator evaluator' known inside held pairs last final control left right := by
  obtain ⟨next, after, stepped, deed, rest⟩ := trail.step
  have fits : after.world.heap.Addressable := rest.fits.mono (iterations_grows (@mute_keeps σ Heap.Advances _) rest.standing)
  obtain ⟨ties', _, contained'⟩ := contained.step stepped fits
  have bounded : after.world.heap.maxNodes = left.world.heap.maxNodes := Retreads.maxNodes_step stepped
  have keeping : ∀ {next after}, Trail start evaluator last final count next after → Contained known ties' next after →
      KeepsUp base names evaluator evaluator' known control' right next after →
      ∃ later next after ties, later ≤ count ∧ Trail start evaluator last final later next after ∧ Contained known ties next after ∧
        KeepsUp base names evaluator evaluator' known control' right next after :=
    fun rest contained keepsUp => ⟨count, _, _, ties', Nat.le_refl _, rest, contained, keepsUp⟩
  cases deed with
  | works quiet isFresh _ _ =>
    exact .inl (keeping rest contained' (retreads.works regular trail.active quiet isFresh stepped fits fits'))
  | completes top rewrites stack =>
    exact .inl (keeping rest contained' (retreads.completes twins regular top rewrites stack bounded rest fits'))
  | collapses top leads heap stack =>
    exact .inl (keeping rest contained' (retreads.collapses twins regular top leads heap stack rest fits'))
  | arrives chain isWhnf heap stack =>
    exact .inl (keeping rest contained' (retreads.arrives twins regular chain isWhnf heap stack rest fits'))
  | blocks => exact absurd rfl (rest.active _ _)
  | @claims root node links expr env found claims stack =>
    by_cases finished : inside node ∧ ∀ slotState expr env, (leftover evaluator final).lookup node ≠ .ok ⟨slotState, .thunk expr env⟩
    · obtain ⟨isInside, finished⟩ := finished
      obtain ⟨result, value, inside', later, between, sooner, overtakes⟩ :=
        retreads.overtakes twins found claims stack bounded rest contained' isInside finished
      obtain ⟨ties'', contained''⟩ := overtakes.contained
      have controls := retreads.controls
      cases controls with
      | @force _ root' _ =>
        have stack' := overtakes.stack
        cases links with
        | nil =>
          exact .inl ⟨later, _, between, ties'', Nat.le_of_lt sooner, overtakes.trail, contained'',
            overtakes.lands retreads twins regular found isInside rfl stack' overtakes.trail fits'⟩
        | cons link links =>
          cases later with
          | zero =>
            obtain ⟨rfl, rfl⟩ : Control.deliver (.stored result value) = last ∧ between = final := by
              simpa [iterations] using overtakes.trail.standing
            exact .inr ⟨root, link :: links, node, expr, env, result, value, inside', rfl, by simp, found, rfl, overtakes⟩
          | succ later =>
            obtain ⟨after', stepped', heap', stack', rest'⟩ := overtakes.trail.collapse overtakes.stack
            have fits : after'.world.heap.Addressable :=
              rest'.fits.mono (iterations_grows (@mute_keeps σ Heap.Advances _) rest'.standing)
            obtain ⟨bonds, _, collapsed⟩ := contained''.step stepped' fits
            exact .inl ⟨later, _, after', bonds, by omega, rest', collapsed,
              overtakes.lands retreads twins regular found isInside heap' stack' rest' fits'⟩
    · refine .inl (keeping rest contained' (retreads.claims twins regular trail found (fun isInside => ?_) claims stack bounded fits'))
      obtain ⟨slotState, expr', env', unfinished⟩ :
          ∃ slotState expr env, (leftover evaluator final).lookup node = .ok ⟨slotState, .thunk expr env⟩ := by
        by_contra absent
        exact finished ⟨isInside, fun slotState expr env unfinished => absent ⟨slotState, expr, env, unfinished⟩⟩
      obtain ⟨_, thunk⟩ := trail.left_thunk ⟨_, found.live⟩ unfinished
      cases found.live.symm.trans thunk
      exact ⟨slotState, unfinished⟩

/-! ### Where the call was left -/

theorem Trail.meets (trail : Trail start evaluator last final count control left)
    (retraces : base.Retraces names evaluator.actor evaluator'.actor known inside held pairs final.world.heap right.world.heap)
    (twins : (leftover evaluator final).Twins Eq known names base)
    (markers : ∀ {handle handle'}, pairs handle handle' →
      (.update handle ∈ final.stack.items ↔ .update handle' ∈ right.stack.items))
    (marked : ∀ node, .update node ∈ right.stack.items → base.Offers node ∨ held node)
    (answered : ∀ node, held node → .update node ∈ right.stack.items)
    (others : ∀ {owner handle}, start.HeldBy owner handle → Substitutes evaluator.actor evaluator'.actor owner owner)
    (unawaited : right.world.heap.waits = []) :
    final.world.heap.Twins (Substitutes evaluator.actor evaluator'.actor) known pairs right.world.heap := by
  refine retraces.twins twins (fun both unheld old => ?_) (fun {handle handle' content} both isHeld settled => ?_)
    (fun heldBy => others (trail.left_heldBy heldBy)) ⟨trail.whole.unawaited, unawaited⟩
  · refine leftover_unmarked trail.held fun member => ?_
    exact (marked _ ((markers both).mp member)).elim old unheld
  · have member := (markers both).mpr (answered _ isHeld)
    obtain ⟨expr, env, thunk⟩ := trail.held.thunk member
    cases (leftover_marked trail.held member thunk).symm.trans settled
    exact thunk

def Converges (evaluator evaluator' : Evaluator) (known : Handle → Prop) (control control' : Control) (left right : State σ) : Prop :=
  ∃ pairs, Abreast True known (Heap.Twins (Substitutes evaluator.actor evaluator'.actor) known) pairs left right ∧
    control.Alike known pairs control' ∧ control.Rooted left.world.heap

/-- The repetition walks the chain that is not collapsed yet, while the call collapses it. -/
theorem Dangles.meets
    (dangles : Dangles start base names evaluator evaluator' known inside held pairs last final control left right)
    (retreads : Retreads base names evaluator evaluator' known inside held pairs control control' left right)
    (twins : (leftover evaluator final).Twins Eq known names base)
    (others : ∀ {owner handle}, start.HeldBy owner handle → Substitutes evaluator.actor evaluator'.actor owner owner)
    (unlimited : Unlimited (iterate mute evaluator) last final) :
    Halts mute evaluator' control' right ∨
      ∃ next' after' after, iterate mute evaluator' control' right = .ok (.continues next') after' ∧
        iterate mute evaluator last final = .ok (.continues last) after ∧
        Converges evaluator evaluator' known last next' after after' := by
  obtain ⟨root, links, node, expr, env, result, value, inside', rfl, occupied, found, rfl, overtakes⟩ := dangles
  have exactly := overtakes.heaps.exactly
  have items : final.stack.items = .redirect links :: left.stack.items := by
    rw [overtakes.stack]
    cases links with
    | nil => exact absurd rfl occupied
    | cons => rfl
  have markers : ∀ {handle handle'}, pairs.joining names inside' handle handle' →
      (.update handle ∈ final.stack.items ↔ .update handle' ∈ right.stack.items) := by
    intro handle handle' both
    rw [items]
    constructor
    · intro member
      obtain ⟨other, member', both'⟩ := retreads.marker_right ((List.mem_cons.mp member).resolve_left nofun)
      rwa [(exactly both (.inl both')).mp rfl]
    · intro member
      obtain ⟨other, member', both'⟩ := retreads.marker_left member
      rw [(exactly both (.inl both')).mpr rfl]
      exact .tail _ member'
  have twins' := overtakes.trail.meets overtakes.heaps twins markers retreads.marked retreads.answered others retreads.unawaited
  -- the chain ends in the thunk, or goes on from it to the value
  obtain ⟨passed, way, pointed⟩ : ∃ passed, final.world.heap.Route result passed root ∧
      final.world.heap.pointAll passed result = final.world.heap.pointAll links result := by
    have way := (Heap.follow_route found).mono overtakes.still
    rcases overtakes.written with rfl | linked
    · exact ⟨links, way, rfl⟩
    · refine ⟨links ++ [node], way.append (.link linked .here), ?_⟩
      obtain ⟨state, linked⟩ := linked
      rw [Heap.pointAll_append, Heap.pointAll_still ⟨state, ?_⟩]
      rw [Heap.lookup_pointAll, linked]
      split <;> rfl
  obtain ⟨isWhnf, stored⟩ := overtakes.trail.poised.sound
  have controls := retreads.controls
  cases controls with
  | @force _ root' both =>
    obtain ⟨target', passed', way', targets, each⟩ := twins'.route (.inl both) way
    obtain ⟨⟨state', value'⟩, there, _, nodes⟩ := twins'.ok targets (stored _ rfl)
    have isWhnf' : value'.tag.isWhnf := nodes.tag ▸ isWhnf
    have noLink := Tag.ne_indirection_of_whnf isWhnf'
    have live : ∀ link ∈ links, final.world.heap.Live link := by
      intro link member
      obtain ⟨_, _, linked⟩ := (Heap.follow_route found).linksTo member
      exact ⟨_, (overtakes.still link member).trans linked⟩
    rcases force_arrives mute evaluator' (way'.follow there noLink) isWhnf' with halts | ⟨after', stepped', stack', heap'⟩
    · exact .inl halts
    rcases deliver_collapses mute evaluator value items live with ⟨limit, _, halts⟩ | ⟨after, stepped, stack, heap⟩
    · exact absurd halts ((unlimited _ _ .here).2 _ _)
    refine .inr ⟨_, after', after, stepped', stepped, _, ⟨?_, ?_, fun strict => absurd trivial strict⟩, .deliver (.stored targets nodes),
      trivial⟩
    · rw [heap, heap', ← pointed]
      exact twins'.pointAll each targets
    · rw [stack, stack']
      exact retreads.abreast.frames.imp fun _ _ frames => frames.mono fun _ _ => .inl

/-- The repetition follows the call to where it was left, unless a limit stops it on the way. -/
theorem Retreads.retrace
    (retreads : Retreads base names evaluator evaluator' known inside held pairs control control' left right)
    (twins : (leftover evaluator final).Twins Eq known names base) (regular : base.Regular)
    (others : ∀ {owner handle}, start.HeldBy owner handle → Substitutes evaluator.actor evaluator'.actor owner owner)
    (trail : Trail start evaluator last final count control left) (contained : Contained known ties control left)
    (unlimited : Unlimited (iterate mute evaluator) last final) (roomy : Roomy (iterate mute evaluator') control' right) :
    ∃ next' after', Passes (iterate mute evaluator') control' right next' after' ∧
      (Halts mute evaluator' next' after' ∧
          (∃ inside held pairs control left, Retreads base names evaluator evaluator' known inside held pairs control next' left after') ∨
        ∃ next after, Passes (iterate mute evaluator) last final next after ∧ Converges evaluator evaluator' known next next' after after') := by
  induction count using Nat.strongRecOn generalizing inside held pairs control control' left right ties with
  | ind count ih =>
    cases count with
    | zero =>
      cases trail.standing
      have twins' := trail.meets retreads.abreast.heaps twins retreads.marked_iff retreads.marked retreads.answered others
        retreads.unawaited
      exact ⟨control', right, .here, .inr ⟨_, _, .here, pairs, ⟨twins', retreads.abreast.frames, fun strict => absurd trivial strict⟩,
        retreads.controls, trail.rooted⟩⟩
    | succ count =>
      rcases retreads.advances twins regular trail contained (roomy _ _ .here) with
        ⟨later, next, after, ties', short, rest, contained', halts | ⟨next', after', inside', held', pairs', stepped', retreads'⟩⟩ | dangles
      · exact ⟨control', right, .here, .inl ⟨halts, inside, held, pairs, control, left, retreads⟩⟩
      · obtain ⟨last', reached', passes, ends⟩ :=
          ih later (Nat.lt_succ_of_le short) retreads' rest contained' (roomy.onward stepped')
        exact ⟨last', reached', .onward stepped' passes, ends⟩
      · rcases dangles.meets retreads twins others unlimited with halts | ⟨next', after', after, stepped', stepped, meets⟩
        · exact ⟨control', right, .here, .inl ⟨halts, inside, held, pairs, control, left, retreads⟩⟩
        · exact ⟨next', after', .onward stepped' .here, .inr ⟨last, after, .onward stepped .here, meets⟩⟩

end LazyGraph.Machine
