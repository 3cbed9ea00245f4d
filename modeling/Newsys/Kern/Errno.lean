/- The error codes of the kernel (include/kern/errno.h) that the modelled calls return. -/
namespace Kern

inductive Errno where
  | ENOENT | EACCES | EPERM | EBUSY | EFAULT | EINTR | EINVAL | ENOMEM | EMFILE | EAGAIN | ENAMETOOLONG
  | ENFILE | ENODEV | EIO | ENOSYS | EPIPE | EROFS | ESPIPE | ESRCH | EBADF | ENXIO | EMOUNTED | ENOEXEC | ENSYM | ECHILD
  | ENODESKTOP | EEXIST
  deriving DecidableEq

end Kern
